import FCMalloc.FirstTouch
import FCMalloc.HeapGrowth

/-!
# FCMalloc.MallocPaths

`LocalMemoryManager::Malloc` from start to end: which block it returns, and what becomes of
every queue.

The four ways through the call are the constructors of `Obtains`: the front of `malloc_`, of
`free_[core_]`, of the common pool after a batch of it has moved to `malloc_`, or of a batch
carved for the occasion. A class whose table entry is zero is `Refused`. `HeapInv.malloc_runs`
shows that a call which returns has gone one of these ways, and what it kept on the way
(`Mallocs`): every block, every body, and every block that is on no queue.

A call returns unless it has to touch an arena of `2 ^ 32` bytes or more (`Returns`), because
`FirstTouch` does not (`HeapInv.malloc_diverges`).
-/

namespace FCMalloc

open ByteMemory GlobalMemoryManager LocalMemoryManager

namespace LocalMemoryManager

/-- Class `i` of `malloc_`. -/
def ownQueue (m : LocalMemoryManager) (i : SizeClass) : QueueId := (m.mallocList, i)

/-- Class `i` of `free_[core_]`. -/
def coreQueue (m : LocalMemoryManager) (i : SizeClass) : QueueId := (m.freeLists m.core, i)

/-- Class `i` of `poolsPerCore_[core_]`. -/
def poolQueue (m : LocalMemoryManager) (i : SizeClass) : QueueId := (.poolsPerCore m.core, i)

end LocalMemoryManager

/-- **The ways to a block of class `i`** from process `s` with queues `q`: `ptr` is returned,
and the process `s'` and the queues `q'` are left. -/
inductive Obtains (c : Config) (m : LocalMemoryManager) (i : SizeClass) (s : Process)
    (q : QueueId → List Nat) (ptr : Nat) (s' : Process) (q' : QueueId → List Nat) : Prop
  /-- The front of `malloc_`. -/
  | own {a : Nat} {t : List Nat} (hown : q (m.ownQueue i) = a :: t) (hptr : ptr = a + headerSize)
      (hprocess : s' = { s with store := s'.store })
      (hqueues : q' = Function.update q (m.ownQueue i) t)
  /-- The front of `free_[core_]`, which has become `malloc_`. -/
  | core {a : Nat} {t : List Nat} (hown : q (m.ownQueue i) = [])
      (hcore : q (m.coreQueue i) = a :: t) (hptr : ptr = a + headerSize)
      (hprocess : s' = { s with store := s'.store })
      (hqueues : q' = Function.update (Function.update q (m.ownQueue i) t) (m.coreQueue i) [])
  /-- The front of the pool: up to a batch leaves it, and the rest of that is on `malloc_`. -/
  | pool {a : Nat} {t : List Nat} (hown : q (m.ownQueue i) = []) (hcore : q (m.coreQueue i) = [])
      (hpool : q (m.poolQueue i) = a :: t) (hptr : ptr = a + headerSize)
      (hprocess : s' = { s with store := s'.store })
      (hqueues : q' = Function.update (Function.update q (m.ownQueue i)
        ((q (m.poolQueue i)).take (c.nPerSize i).toNat).tail) (m.poolQueue i)
        ((q (m.poolQueue i)).drop (c.nPerSize i).toNat))
  /-- The first block of a batch carved out of a new range `r` of an arena. -/
  | carved {new : List Block} {r : Extent} {b : Block} {bs : List Block}
      (hown : q (m.ownQueue i) = []) (hcore : q (m.coreQueue i) = [])
      (hpool : q (m.poolQueue i) = []) (hnew : new = b :: bs)
      (hcount : new.length = (c.nPerSize i).toNat) (hcarved : s'.carved = s.carved ++ new)
      (hrange : s'.mm.ranges = r :: s.mm.ranges) (hwithin : ∀ b ∈ new, b.extent.Within r)
      (hptr : ptr = b.body)
      (hqueues : q' = Function.update q (m.ownQueue i) (bs.map Block.addr))

/-- `nullptr` with `ENOMEM`: no queue, no arena offset and no block has changed. -/
structure Refused (s : Process) (q : QueueId → List Nat) (ptr : Nat) (s' : Process)
    (q' : QueueId → List Nat) : Prop where
  null : ptr = 0
  errno : s'.store.errno = enomem
  queues : q' = q
  offsets : s'.mm.offsets = s.mm.offsets
  carved : s'.carved = s.carved

/-- What a call of `Malloc` for class `i` has kept: every block is still there with its body,
and what was on no queue still is on none; the block returned, if any, has left the queues. -/
structure Mallocs (c : Config) (i : SizeClass) (s : Process) (q : QueueId → List Nat)
    (ptr : Nat) (s' : Process) (q' : QueueId → List Nat) : Prop where
  heap : HeapInv c s' q'
  kept : s.carved <+: s'.carved
  bodies : SameBodies s.carved s.store.mem s'.store.mem
  loose : ∀ b ∈ s.carved, ¬ Queued q b.addr → ¬ Queued q' b.addr
  taken : ptr ≠ 0 → ∃ b ∈ s'.carved, ptr = b.body ∧ b.size = 2 ^ i.val ∧ ¬ Queued q' b.addr ∧
    ∀ b' ∈ s.carved, ¬ Queued q b'.addr → b' ≠ b

/-- One call after the other. -/
theorem Mallocs.trans {c : Config} {i i' : SizeClass} {s s' s'' : Process}
    {q q' q'' : QueueId → List Nat} {ptr ptr' : Nat} (h : Mallocs c i s q ptr s' q')
    (h' : Mallocs c i' s' q' ptr' s'' q'') : Mallocs c i' s q ptr' s'' q'' where
  heap := h'.heap
  kept := h.kept.trans h'.kept
  bodies := h.bodies.trans (h'.bodies.mono fun _ hb => h.kept.subset hb)
  loose b hb hout := h'.loose b (h.kept.subset hb) (h.loose b hb hout)
  taken hne := by
    obtain ⟨b, hb, hptr, hsize, hout, hothers⟩ := h'.taken hne
    exact ⟨b, hb, hptr, hsize, hout, fun b' hb' hloose =>
      hothers b' (h.kept.subset hb') (h.loose b' hb' hloose)⟩

/-- Malloc need not touch an arena, or the touch returns. -/
def Returns (c : Config) (main : Bool) (m : LocalMemoryManager) (s : Process)
    (q : QueueId → List Nat) (i : SizeClass) : Prop :=
  q (m.ownQueue i) = [] → q (m.coreQueue i) = [] → q (m.poolQueue i) = [] →
    s.mm.firstTouchFlag (c.arena main m.core) = true ∨
      s.mm.sizes (c.arena main m.core) < 2 ^ 32

/-- An `mmap` that `Malloc` makes succeeds. -/
def FreshMmap [ClzZero] (c : Config) (main : Bool) (m : LocalMemoryManager) (s : Process)
    (size ret : Nat) : Prop :=
  s.mm.needsExtension c (c.arena main m.core) (mmapSize c size (c.batch (sizeClass size))) = true →
    c.Fresh s.mm.maps ret
      (align (MmapManager.allocSize (mmapSize c size (c.batch (sizeClass size)))) c.pageSize)

/-- `Malloc` comes to the arena and has to extend it. -/
structure Extends (c : Config) (main : Bool) (m : LocalMemoryManager) (s : Process)
    (q : QueueId → List Nat) (size : Nat) : Prop where
  own : q (m.ownQueue (sizeClass size)) = []
  core : q (m.coreQueue (sizeClass size)) = []
  pool : q (m.poolQueue (sizeClass size)) = []
  arena : s.mm.needsExtension c (c.arena main m.core)
    (mmapSize c size (c.batch (sizeClass size))) = true

/-- The report of an extension, if there is one, asks for no memory. -/
def Quiet (c : Config) (main : Bool) (m : LocalMemoryManager) (s : Process)
    (q : QueueId → List Nat) (size : Nat) (asked : List Nat) : Prop :=
  Extends c main m s q size → ∀ n ∈ asked, n = 0

/-- An arena that was never touched has the size `Init` gave it. -/
def Untouched (c : Config) (mm : MmapManager) : Prop :=
  ∀ a < c.threadN, mm.firstTouchFlag a = false → mm.sizes a = MmapManager.initSize c a

/-! ### The queues each way leaves -/

section Queues

variable {c : Config} {m : LocalMemoryManager} {q : QueueId → List Nat} {i : SizeClass}
  {a : Nat} {t : List Nat}

theorem dequeue_own (hown : q (m.ownQueue i) = a :: t) :
    dequeue (m.ownQueues q i) (m.ownQueue i) = Function.update q (m.ownQueue i) t := by
  have hq : m.ownQueues q i = q := if_neg (by
    rw [← ownQueue, hown]
    exact List.cons_ne_nil a t)
  rw [hq, dequeue, hown, List.tail_cons]

theorem ownQueues_of_nil (hown : q (m.ownQueue i) = []) :
    m.ownQueues q i = swapped q (m.ownQueue i) (m.coreQueue i) := if_pos hown

theorem dequeue_core (hne : m.ownQueue i ≠ m.coreQueue i) (hown : q (m.ownQueue i) = [])
    (hcore : q (m.coreQueue i) = a :: t) : dequeue (m.ownQueues q i) (m.ownQueue i) =
      Function.update (Function.update q (m.ownQueue i) t) (m.coreQueue i) [] := by
  have hfront : swapped q (m.ownQueue i) (m.coreQueue i) (m.ownQueue i) = a :: t := by
    rw [swapped, Function.update_of_ne hne, Function.update_self, hcore]
  rw [ownQueues_of_nil hown, dequeue, hfront, List.tail_cons, swapped, hown,
    Function.update_comm hne, Function.update_idem]
  exact Function.update_comm hne.symm _ _ _

theorem poolQueues_own (hne : m.ownQueue i ≠ m.poolQueue i) (hown : q (m.ownQueue i) = []) :
    CommonMemoryPool.poolQueues c q m.mallocList m.core i (m.ownQueue i) =
      (q (m.poolQueue i)).take (c.nPerSize i).toNat := by
  show moveFront q (m.poolQueue i) (m.ownQueue i) _ (m.ownQueue i) = _
  rw [moveFront, Function.update_of_ne hne, Function.update_self, hown, List.nil_append]

theorem dequeue_pool (hne : m.ownQueue i ≠ m.poolQueue i) (hown : q (m.ownQueue i) = []) :
    dequeue (CommonMemoryPool.poolQueues c q m.mallocList m.core i) (m.ownQueue i) =
      Function.update (Function.update q (m.ownQueue i)
        ((q (m.poolQueue i)).take (c.nPerSize i).toNat).tail) (m.poolQueue i)
        ((q (m.poolQueue i)).drop (c.nPerSize i).toNat) := by
  rw [dequeue, poolQueues_own hne hown]
  show Function.update (moveFront q (m.poolQueue i) (m.ownQueue i) _) (m.ownQueue i) _ = _
  rw [moveFront, Function.update_comm hne, Function.update_idem]
  exact Function.update_comm hne.symm _ _ _

end Queues

/-! ### The call -/

namespace HeapInv

variable {c : Config} {main : Bool} {s s' s₂ : Process} {q q' q₁ q₂ : QueueId → List Nat}
  {i : SizeClass} {j size ptr ret p : Nat} {asked : List Nat} {k : QueueId} {new : List Block}

/-- What the front of a queue leaves behind. -/
theorem mallocs_of_served (h' : HeapInv c s' q') (hkept : s.carved <+: s'.carved)
    (hbodies : SameBodies s.carved s.store.mem s'.store.mem) (hcarved : s₂.carved = s'.carved)
    (hold : ∀ b ∈ s.carved, ¬ Queued q b.addr → ¬ Queued q₂ b.addr)
    (hserved : Served c s₂ q₂ q' k ptr) (hclass : k.2 = i) : Mallocs c i s q ptr s' q' := by
  cases hserved with
  | inl hnull =>
      obtain ⟨hptr, hqueued⟩ := hnull
      refine ⟨h', hkept, hbodies, fun b hb hb' => ?_, fun hne => absurd hptr hne⟩
      rw [hqueued]
      exact hold b hb hb'
  | inr hblock =>
      obtain ⟨b, hb, hptr, -, hsize, hwas, hqueued⟩ := hblock
      rw [hcarved] at hb
      refine ⟨h', hkept, hbodies, fun b' hb' hloose => ?_, fun _ => ?_⟩
      · rw [hqueued]
        exact fun hboth => hold b' hb' hloose hboth.1
      · refine ⟨b, hb, hptr, hclass ▸ hsize, ?_, fun b' hb' hloose heq => ?_⟩
        · rw [hqueued]
          exact fun hboth => hboth.2 rfl
        · exact hold b' hb' hloose (heq ▸ hwas)

/-- Taking from queues that hold the blocks of `q`. -/
theorem mallocs_of_dealt {store : Store ListId} (h : HeapInv c s q) (hdealt : Dealt c q q₁)
    (h' : HeapInv c { s with store } (dequeue q₁ k))
    (hlinks : OnlyLinks (nodes s.carved) s.store.mem store.mem) (hptr : ptr = frontBody (q₁ k))
    (hclass : k.2 = i) : Mallocs c i s q ptr { s with store } (dequeue q₁ k) :=
  mallocs_of_served h' (List.prefix_refl _) (h.sameBodies_links hlinks) rfl (fun _ _ hb => hb)
    (hptr ▸ h.served_of_dealt hdealt) hclass

theorem ownQueue_ne (hj : j < managerN c) :
    (managerPools c j).ownQueue i ≠ (managerPools c j).coreQueue i ∧
      (managerPools c j).ownQueue i ≠ (managerPools c j).poolQueue i := by
  have hcore : (managerPools c j).core < c.coreN := core_lt hj
  exact ⟨fun heq => mallocList_ne_freeLists hj hj hcore (congrArg Prod.fst heq),
    fun heq => mallocList_ne_pool (congrArg Prod.fst heq)⟩

/-- **The manager's own lists** are tried first. -/
theorem malloc_own (h : HeapInv c s q) (hj : j < managerN c) (hsize : size ≠ 0)
    (hne : q ((managerPools c j).ownQueue (sizeClass size)) ≠ [] ∨
      q ((managerPools c j).coreQueue (sizeClass size)) ≠ []) :
    ∃ ptr s' q', (managerPools c j).malloc c main s size ret asked = some (ptr, s') ∧
      (managerPools c j).mallocPrinting c s.store size = some s'.store ∧
      Mallocs c (sizeClass size) s q ptr s' q' ∧ ptr ≠ 0 ∧
      Obtains c (managerPools c j) (sizeClass size) s q ptr s' q' := by
  let m := managerPools c j
  have hcore : m.core < c.coreN := core_lt hj
  obtain ⟨hptr, hinv⟩ := h.mallocOwn hj size
  have hlinks := (mallocOwn_moved h.sound (mallocList_ne_freeLists hj hj hcore) size).2.links
  have hmallocs := h.mallocs_of_dealt (h.dealt_own hj) hinv hlinks hptr rfl
  have hrun : (m.mallocOwn s.store size).1 ≠ 0 → m.malloc c main s size ret asked =
        some ((m.mallocOwn s.store size).1, { s with store := (m.mallocOwn s.store size).2 }) ∧
      m.mallocPrinting c s.store size = some (m.mallocOwn s.store size).2 := by
    intro hne0
    rw [LocalMemoryManager.malloc, if_neg hsize, LocalMemoryManager.mallocPrinting, if_neg hsize]
    dsimp only
    rw [if_pos hne0, if_pos hne0]
    exact ⟨rfl, rfl⟩
  cases hown : q (m.ownQueue (sizeClass size)) with
  | cons a t =>
      have hown' : m.ownQueues q (sizeClass size) = q := if_neg (by
        rw [← ownQueue, hown]
        exact List.cons_ne_nil a t)
      rw [hown', ← ownQueue, hown] at hptr
      have hne0 : (m.mallocOwn s.store size).1 ≠ 0 := by
        rw [hptr]
        exact frontBody_cons_ne_zero
      exact ⟨_, _, _, (hrun hne0).1, (hrun hne0).2, hmallocs, hne0, .own hown hptr rfl (dequeue_own hown)⟩
  | nil =>
      have hcoreQ : q (m.coreQueue (sizeClass size)) ≠ [] := hne.resolve_left (not_not.mpr hown)
      cases hfree : q (m.coreQueue (sizeClass size)) with
      | nil => exact absurd hfree hcoreQ
      | cons a t =>
          have hqne := (ownQueue_ne (i := sizeClass size) hj).1
          have hfront : m.ownQueues q (sizeClass size) (m.ownQueue (sizeClass size)) = a :: t := by
            rw [ownQueues_of_nil hown, swapped, Function.update_of_ne hqne, Function.update_self,
              hfree]
          rw [← ownQueue, hfront] at hptr
          have hne0 : (m.mallocOwn s.store size).1 ≠ 0 := by
            rw [hptr]
            exact frontBody_cons_ne_zero
          exact ⟨_, _, _, (hrun hne0).1, (hrun hne0).2, hmallocs, hne0,
            .core hown hfree hptr rfl (dequeue_core hqne hown hfree)⟩

/-- With both lists empty in the class, the queues are as before. -/
theorem mallocOwn_empty (h : HeapInv c s q) (hj : j < managerN c)
    (hown : q ((managerPools c j).ownQueue (sizeClass size)) = [])
    (hcore : q ((managerPools c j).coreQueue (sizeClass size)) = []) :
    let own := (managerPools c j).mallocOwn s.store size
    own.1 = 0 ∧ HeapInv c { s with store := own.2 } q ∧
      OnlyLinks (nodes s.carved) s.store.mem own.2.mem := by
  let m := managerPools c j
  have hlt : m.core < c.coreN := core_lt hj
  have hqueues : m.ownQueues q (sizeClass size) = q := by
    rw [ownQueues_of_nil hown]
    exact swapped_of_nil hown hcore
  have hlinks := (mallocOwn_moved h.sound (mallocList_ne_freeLists hj hj hlt) size).2.links
  obtain ⟨hptr, hinv⟩ := h.mallocOwn hj size
  rw [hqueues, ← ownQueue] at hptr hinv
  rw [hown] at hptr
  rw [dequeue_of_nil hown] at hinv
  exact ⟨hptr, hinv, hlinks⟩

/-- **The pool** is tried next. -/
theorem malloc_pool (h : HeapInv c s q) (hj : j < managerN c) (hsize : size ≠ 0)
    (hown : q ((managerPools c j).ownQueue (sizeClass size)) = [])
    (hcore : q ((managerPools c j).coreQueue (sizeClass size)) = [])
    (hpool : q ((managerPools c j).poolQueue (sizeClass size)) ≠ []) :
    ∃ ptr s' q', (managerPools c j).malloc c main s size ret asked = some (ptr, s') ∧
      (managerPools c j).mallocPrinting c s.store size = some s'.store ∧
      Mallocs c (sizeClass size) s q ptr s' q' ∧ ptr ≠ 0 ∧
      Obtains c (managerPools c j) (sizeClass size) s q ptr s' q' := by
  obtain ⟨hnull, hinv, hlinks⟩ := h.mallocOwn_empty hj hown hcore
  let m := managerPools c j
  let own := m.mallocOwn s.store size
  let pooled := CommonMemoryPool.malloc c own.2 m.mallocList m.core size
  obtain ⟨hptr, hmoved⟩ := CommonMemoryPool.malloc_moved (c := c) hinv.sound
    (mallocList_ne_pool (j := j) (k := m.core)) hsize
  have hinv' := (hinv.mallocPool hj hsize).2
  have hmallocs := h.mallocs_of_dealt (h.dealt_pool hj) hinv' (hlinks.trans hmoved.links) hptr rfl
  -- a class with a pool has a batch, so a block of the pool moves over
  have hbatch : 0 < (c.nPerSize (sizeClass size)).toNat := by
    by_contra hzero
    exact hpool (h.queue_nil (by omega))
  have hqne := (ownQueue_ne (i := sizeClass size) hj).2
  cases hq : q (m.poolQueue (sizeClass size)) with
  | nil => exact absurd hq hpool
  | cons a t =>
      obtain ⟨n, hn⟩ : ∃ n, (c.nPerSize (sizeClass size)).toNat = n + 1 :=
        ⟨_, (Nat.succ_pred_eq_of_pos hbatch).symm⟩
      have hfront : pooled.1 = a + headerSize := by
        rw [hptr, ← ownQueue, poolQueues_own hqne hown, hq, hn, List.take_succ_cons, frontBody]
      have hne0 : pooled.1 ≠ 0 := by
        rw [hfront]
        unfold headerSize
        omega
      have hrun : m.malloc c main s size ret asked =
            some (pooled.1, { s with store := pooled.2 }) ∧
          m.mallocPrinting c s.store size = some pooled.2 := by
        rw [LocalMemoryManager.malloc, if_neg hsize, LocalMemoryManager.mallocPrinting, if_neg hsize]
        dsimp only
        rw [if_neg (not_not.mpr hnull), if_pos hne0, if_neg (not_not.mpr hnull), if_pos hne0]
        exact ⟨rfl, rfl⟩
      exact ⟨_, _, _, hrun.1, hrun.2, hmallocs, hne0, .pool hown hcore hq hfront rfl (dequeue_pool hqne hown)⟩

/-- With the pool empty too, the call has come to the arena with the queues as before. -/
theorem malloc_empty (h : HeapInv c s q) (hj : j < managerN c) (hsize : size ≠ 0)
    (hown : q ((managerPools c j).ownQueue (sizeClass size)) = [])
    (hcore : q ((managerPools c j).coreQueue (sizeClass size)) = [])
    (hpool : q ((managerPools c j).poolQueue (sizeClass size)) = []) :
    ∃ store, HeapInv c { s with store } q ∧ OnlyLinks (nodes s.carved) s.store.mem store.mem ∧
      (managerPools c j).mallocPrinting c s.store size = none ∧
      ∀ main ret asked, (managerPools c j).malloc c main s size ret asked =
        (Process.allocate c main { s with store } (managerPools c j).mallocList
          (managerPools c j).core size (c.batch (sizeClass size)) ret
          ((managerPools c j).report c asked)).map ((managerPools c j).mallocLast · size) := by
  obtain ⟨hnull, hinv, hlinks⟩ := h.mallocOwn_empty hj hown hcore
  let m := managerPools c j
  let own := m.mallocOwn s.store size
  let pooled := CommonMemoryPool.malloc c own.2 m.mallocList m.core size
  obtain ⟨hptr, hmoved⟩ := CommonMemoryPool.malloc_moved (c := c) hinv.sound
    (mallocList_ne_pool (j := j) (k := m.core)) hsize
  have hinv' := (hinv.mallocPool hj hsize).2
  have hqueues : CommonMemoryPool.poolQueues c q m.mallocList m.core (sizeClass size) = q :=
    moveFront_of_nil (by rw [show q (.poolsPerCore m.core, sizeClass size) = [] from hpool,
      List.take_nil])
  dsimp only at hinv'
  rw [hqueues, ← ownQueue] at hptr hinv'
  rw [hown] at hptr
  rw [dequeue_of_nil hown] at hinv'
  have hptr' : pooled.1 = 0 := hptr
  refine ⟨pooled.2, hinv', hlinks.trans hmoved.links, ?_, fun main ret asked => ?_⟩
  · rw [LocalMemoryManager.mallocPrinting, if_neg hsize]
    dsimp only
    rw [if_neg (not_not.mpr hnull), if_neg (not_not.mpr hptr')]
  · rw [LocalMemoryManager.malloc, if_neg hsize]
    dsimp only
    rw [if_neg (not_not.mpr hnull), if_neg (not_not.mpr hptr')]

/-- The last step of `Malloc` keeps everything outside the links. -/
theorem mallocLast_links (h : HeapInv c s q) (m : LocalMemoryManager) (size : Nat) :
    OnlyLinks (nodes s.carved) s.store.mem (m.mallocLast s size).2.store.mem := by
  have hlinks := (h.sound.malloc m.mallocList size).2.links
  rw [LocalMemoryManager.mallocLast]
  dsimp only
  split
  · exact hlinks
  · exact hlinks

theorem mallocLast_errno {m : LocalMemoryManager} (h : (m.mallocLast s size).1 = 0) :
    (m.mallocLast s size).2.store.errno = enomem := by
  rw [LocalMemoryManager.mallocLast] at h ⊢
  dsimp only at h ⊢
  rw [if_pos h]

/-- The touch of the manager's arena returns if the arena is touched or small. -/
theorem touchOnce_returns_iff (h : HeapInv c s q) (hj : j < managerN c)
    (hsized : Untouched c s.mm) :
    (∃ touch, MmapManager.touchOnce c main s.mm (c.arena main (managerPools c j).core) =
        some touch) ↔
      s.mm.firstTouchFlag (c.arena main (managerPools c j).core) = true ∨
        s.mm.sizes (c.arena main (managerPools c j).core) < 2 ^ 32 := by
  have hlt : (managerPools c j).core < c.coreN := core_lt hj
  have ha : c.arena main (managerPools c j).core < c.threadN := Config.arena_lt (Nat.le_of_lt hlt)
  cases hflag : s.mm.firstTouchFlag (c.arena main (managerPools c j).core) with
  | true =>
      refine ⟨fun _ => Or.inl rfl, fun _ => ⟨(s.mm, []), ?_⟩⟩
      rw [MmapManager.touchOnce, hflag]
      rfl
  | false =>
      have hdvd : c.pageSize ∣ s.mm.sizes (c.arena main (managerPools c j).core) := by
        rw [hsized _ ha hflag]
        unfold MmapManager.initSize
        split
        · exact dvd_align _ _
        · exact dvd_align _ _
      have hspace := (h.arena.pool_add_size_lt ha).2
      rw [MmapManager.touchOnce_returns_iff hdvd (Nat.le_of_lt hspace), hflag]

/-- **A call that never comes back**: the arena has `2 ^ 32` bytes or more and is untouched. -/
theorem malloc_diverges (h : HeapInv c s q) (hj : j < managerN c) (hsize : size ≠ 0)
    (hsized : Untouched c s.mm)
    (hreturns : ¬ Returns c main (managerPools c j) s q (sizeClass size)) :
    (managerPools c j).malloc c main s size ret asked = none := by
  unfold Returns at hreturns
  simp only [not_forall] at hreturns
  obtain ⟨hown, hcore, hpool, hstuck⟩ := hreturns
  obtain ⟨store, h₁, -, -, hrun⟩ := h.malloc_empty hj hsize hown hcore hpool
  have henter : s.mm.enter c main (managerPools c j).core
      (mmapSize c size (c.batch (sizeClass size))) ret = none := by
    unfold MmapManager.enter
    rw [Option.map_eq_none_iff, Option.eq_none_iff_forall_ne_some]
    intro touch htouch
    exact hstuck ((h.touchOnce_returns_iff hj hsized).mp ⟨touch, htouch⟩)
  rw [hrun, Process.allocate]
  dsimp only
  rw [henter, Option.bind_none, Option.map_none]

/-- A range carved behind an empty `malloc_`, and the front of it taken. -/
theorem carve_front (h : HeapInv c s q) (hj : j < managerN c) (hsize : size ≠ 0)
    (hfits : c.TableFits) (hown : q ((managerPools c j).ownQueue (sizeClass size)) = [])
    (hgranted : Granted s c p (mmapSize c size (c.batch (sizeClass size)))) :
    let m := managerPools c j
    ∃ s₁ new, s.carveInto c m.mallocList m.core size (c.batch (sizeClass size)) p = some s₁ ∧
      Mallocs c (sizeClass size) s q (m.mallocLast s₁ size).1 (m.mallocLast s₁ size).2
        (Function.update q (m.ownQueue (sizeClass size)) (new.map Block.addr).tail) ∧
      (m.mallocLast s₁ size).1 = frontBody (new.map Block.addr) ∧
      new.length = c.batch (sizeClass size) ∧ s₁.carved = s.carved ++ new ∧ s₁.mm = s.mm ∧
      ∀ b ∈ new, b.extent.Within ⟨p, mmapSize c size (c.batch (sizeClass size))⟩ := by
  intro m
  let n := c.batch (sizeClass size)
  obtain ⟨s₁, hcarve, hcarved, hmm, -, h₁, hbodies⟩ := h.carveInto hfits (Nat.pos_of_ne_zero hsize)
    rfl (core_lt hj) (listCore_mallocList hj) hgranted
  obtain ⟨hptr, h₂⟩ := h₁.mallocLast m size
  let new := blocksFrom p (totalSize size) m.core (bodySize size) n
  have hkept : s.carved <+: (m.mallocLast s₁ size).2.carved := ⟨new, hcarved.symm⟩
  have hsame : SameBodies s.carved s.store.mem (m.mallocLast s₁ size).2.store.mem :=
    hbodies.trans ((h₁.sameBodies_links (h₁.mallocLast_links m size)).mono
      fun b hb => hkept.subset hb)
  have hloose : ∀ b ∈ s.carved, ¬ Queued q b.addr →
      ¬ Queued (enqueue q (m.ownQueue (sizeClass size)) (new.map Block.addr)) b.addr := by
    intro b hb hout
    rw [queued_enqueue, not_or]
    refine ⟨hout, fun hin => ?_⟩
    obtain ⟨b', hb', heq⟩ := List.mem_map.mp hin
    exact h₁.addr_ne_of_append hcarved hb hb' heq.symm
  have hfront : enqueue q (m.ownQueue (sizeClass size)) (new.map Block.addr)
      (m.ownQueue (sizeClass size)) = new.map Block.addr := by
    rw [enqueue, Function.update_self, hown, List.nil_append]
  have hqueues : dequeue (enqueue q (m.ownQueue (sizeClass size)) (new.map Block.addr))
      (m.ownQueue (sizeClass size)) =
        Function.update q (m.ownQueue (sizeClass size)) (new.map Block.addr).tail := by
    rw [dequeue, hfront, enqueue, Function.update_idem]
  have hserved := h₁.served_of_dealt (k := m.ownQueue (sizeClass size)) h₁.dealt_refl
  have hmallocs := mallocs_of_served (i := sizeClass size) h₂ hkept hsame rfl hloose
    (hptr ▸ hserved) rfl
  have hlength : new.length = n := by simp [new, blocksFrom]
  refine ⟨s₁, new, hcarve, hqueues ▸ hmallocs, hptr.trans (congrArg frontBody hfront), hlength,
    hcarved, hmm, fun b hb => ?_⟩
  have hpos : 0 < n := hlength ▸ List.length_pos_of_mem hb
  have hsizes : BatchSizes c size n := hfits.batchSizes (Nat.pos_of_ne_zero hsize) hpos
  exact hsizes.within hb

/-- A batch is carved behind `malloc_`, and its front is taken. -/
theorem malloc_batch (h : HeapInv c s q) (hj : j < managerN c) (hsize : size ≠ 0)
    (hfits : c.TableFits) (hforce : c.forceMmapFlag = true)
    (hown : q ((managerPools c j).ownQueue (sizeClass size)) = [])
    (hcore : q ((managerPools c j).coreQueue (sizeClass size)) = [])
    (hpool : q ((managerPools c j).poolQueue (sizeClass size)) = [])
    (hfresh : FreshMmap c main (managerPools c j) s size ret)
    (htouch : ∃ touch, MmapManager.touchOnce c main s.mm
      (c.arena main (managerPools c j).core) = some touch)
    (hquiet : Quiet c main (managerPools c j) s q size asked) :
    ∃ ptr s' new r, (managerPools c j).malloc c main s size ret asked = some (ptr, s') ∧
      Mallocs c (sizeClass size) s q ptr s' (Function.update q
        ((managerPools c j).ownQueue (sizeClass size)) (new.map Block.addr).tail) ∧
      ptr = frontBody (new.map Block.addr) ∧ (ptr = 0 → s'.store.errno = enomem) ∧
      new.length = c.batch (sizeClass size) ∧ s'.carved = s.carved ++ new ∧
      s'.mm.ranges = r :: s.mm.ranges ∧ (∀ b ∈ new, b.extent.Within r) ∧
      (new = [] → s'.mm.offsets = s.mm.offsets) := by
  let m := managerPools c j
  let n := c.batch (sizeClass size)
  have hlt : m.core < c.coreN := core_lt hj
  have ha : c.arena main m.core < c.threadN := Config.arena_lt (Nat.le_of_lt hlt)
  obtain ⟨store, h₁, hlinks, -, hrun⟩ := h.malloc_empty hj hsize hown hcore hpool
  obtain ⟨⟨p, mm, touched⟩, hm⟩ :=
    (MmapManager.malloc_returns_iff c main s.mm m.core (mmapSize c size n) ret).mpr htouch
  obtain ⟨h₂, hgranted, hranges⟩ := h₁.mallocArena hforce (Nat.le_of_lt hlt) (dvd_align _ _)
    (mmapSize_wrap hfits (Nat.pos_of_ne_zero hsize)) hfresh hm
  -- links, then the touch
  have hbefore : Mallocs c (sizeClass size) s q 0 (({ s with store } : Process).touch mm touched) q := by
    obtain ⟨mm₁, ht, -⟩ := MmapManager.malloc_cases (k := ⟨main, m.core, mmapSize c size n, ret⟩) hm
    exact ⟨h₂, List.prefix_refl _,
      (h.sameBodies_links hlinks).trans (h₁.touched_bodies (Nat.le_of_lt hlt) ht),
      fun _ _ hout => hout, fun hne => absurd rfl hne⟩
  obtain ⟨s₃, new, hcarve, hmallocs, hptr, hlength, hcarved, hmm, hwithin⟩ :=
    h₂.carve_front hj hsize hfits hown hgranted
  refine ⟨(m.mallocLast s₃ size).1, (m.mallocLast s₃ size).2, new, ⟨p, mmapSize c size n⟩, ?_,
    hbefore.trans hmallocs, hptr, mallocLast_errno, hlength, hcarved, ?_, hwithin, ?_⟩
  · have hsilent : s.mm.needsExtension c (c.arena main m.core) (mmapSize c size n) = true →
        m.report c asked = some := fun hneed =>
      report_zeros (hquiet ⟨hown, hcore, hpool, hneed⟩)
    rw [hrun, Process.allocate_quiet (s := { s with store }) hsilent,
      Process.allocate_silent]
    dsimp only
    rw [hm, Option.bind_some, hcarve, Option.map_some]
  · show s₃.mm.ranges = _
    rw [hmm]
    exact hranges
  · intro hnil
    have hzero : n = 0 := by
      rw [hnil, List.length_nil] at hlength
      exact hlength.symm
    rw [show mmapSize c size n = 0 by rw [hzero, mmapSize_zero]] at hm
    have hbound := h.arena.offset_le _ ha
    have hspace := (h.arena.pool_add_size_lt ha).2
    have hsizes : s.mm.sizes (c.arena main m.core) < 2 ^ 64 := by omega
    show s₃.mm.offsets = s.mm.offsets
    rw [hmm]
    exact MmapManager.malloc_zero hm (Nat.lt_of_le_of_lt hbound hsizes)

/-- **The arena** comes last. -/
theorem malloc_arena (h : HeapInv c s q) (hj : j < managerN c) (hsize : size ≠ 0)
    (hfits : c.TableFits) (hforce : c.forceMmapFlag = true)
    (hown : q ((managerPools c j).ownQueue (sizeClass size)) = [])
    (hcore : q ((managerPools c j).coreQueue (sizeClass size)) = [])
    (hpool : q ((managerPools c j).poolQueue (sizeClass size)) = [])
    (hfresh : FreshMmap c main (managerPools c j) s size ret)
    (htouch : ∃ touch, MmapManager.touchOnce c main s.mm
      (c.arena main (managerPools c j).core) = some touch)
    (hquiet : Quiet c main (managerPools c j) s q size asked) :
    ∃ ptr s' q', (managerPools c j).malloc c main s size ret asked = some (ptr, s') ∧
      Mallocs c (sizeClass size) s q ptr s' q' ∧
      ((0 < c.nPerSize (sizeClass size) ∧ ptr ≠ 0 ∧
          Obtains c (managerPools c j) (sizeClass size) s q ptr s' q') ∨
        (c.nPerSize (sizeClass size) = 0 ∧ Refused s q ptr s' q')) := by
  obtain ⟨hbatch, -⟩ := hfits.batch_eq (sizeClass size)
  have hnonneg := hfits.nonneg (sizeClass size)
  obtain ⟨ptr, s', new, r, hrun, hmallocs, hptr, herrno, hlength, hcarved, hrange, hwithin,
    hoffsets⟩ := h.malloc_batch hj hsize hfits hforce hown hcore hpool hfresh htouch
      hquiet
  refine ⟨ptr, s', _, hrun, hmallocs, ?_⟩
  rw [hbatch] at hlength
  cases hnew : new with
  | nil =>
      subst hnew
      have hnull : ptr = 0 := hptr
      refine Or.inr ⟨?_, hnull, herrno hnull, ?_, hoffsets rfl, ?_⟩
      · rw [List.length_nil] at hlength
        omega
      · rw [List.map_nil, List.tail_nil, ← hown, Function.update_eq_self]
      · rw [hcarved, List.append_nil]
  | cons b bs =>
      subst hnew
      have hne0 : ptr ≠ 0 := by
        rw [hptr, List.map_cons]
        exact frontBody_cons_ne_zero
      refine Or.inl ⟨?_, hne0, .carved hown hcore hpool rfl hlength hcarved hrange hwithin hptr rfl⟩
      rw [List.length_cons] at hlength
      omega

/-- **Malloc from start to end.** A call that returns has gone one of the four ways, or been
refused because its class has no batch. -/
theorem malloc_runs (h : HeapInv c s q) (hj : j < managerN c) (hsize : size ≠ 0)
    (hfits : c.TableFits) (hforce : c.forceMmapFlag = true) (hsized : Untouched c s.mm)
    (hfresh : FreshMmap c main (managerPools c j) s size ret)
    (hreturns : Returns c main (managerPools c j) s q (sizeClass size))
    (hquiet : Quiet c main (managerPools c j) s q size asked) :
    ∃ ptr s' q', (managerPools c j).malloc c main s size ret asked = some (ptr, s') ∧
      Mallocs c (sizeClass size) s q ptr s' q' ∧
      ((0 < c.nPerSize (sizeClass size) ∧ ptr ≠ 0 ∧
          Obtains c (managerPools c j) (sizeClass size) s q ptr s' q') ∨
        (c.nPerSize (sizeClass size) = 0 ∧ Refused s q ptr s' q')) := by
  -- a class that is on some list has a batch
  have hbatch : ∀ k : QueueId, k.2 = sizeClass size → q k ≠ [] →
      0 < c.nPerSize (sizeClass size) := by
    intro ⟨l, i⟩ hk hne
    obtain rfl : i = sizeClass size := hk
    by_contra hzero
    exact hne (h.queue_nil (by omega))
  by_cases hown : q ((managerPools c j).ownQueue (sizeClass size)) = []
  case neg =>
    obtain ⟨ptr, s', q', hrun, -, hmallocs, hne0, hobtains⟩ := h.malloc_own hj hsize (Or.inl hown)
    exact ⟨ptr, s', q', hrun, hmallocs, Or.inl ⟨hbatch _ rfl hown, hne0, hobtains⟩⟩
  by_cases hcore : q ((managerPools c j).coreQueue (sizeClass size)) = []
  case neg =>
    obtain ⟨ptr, s', q', hrun, -, hmallocs, hne0, hobtains⟩ := h.malloc_own hj hsize (Or.inr hcore)
    exact ⟨ptr, s', q', hrun, hmallocs, Or.inl ⟨hbatch _ rfl hcore, hne0, hobtains⟩⟩
  by_cases hpool : q ((managerPools c j).poolQueue (sizeClass size)) = []
  case neg =>
    obtain ⟨ptr, s', q', hrun, -, hmallocs, hne0, hobtains⟩ :=
      h.malloc_pool hj hsize hown hcore hpool
    exact ⟨ptr, s', q', hrun, hmallocs, Or.inl ⟨hbatch _ rfl hpool, hne0, hobtains⟩⟩
  exact h.malloc_arena hj hsize hfits hforce hown hcore hpool hfresh
    ((h.touchOnce_returns_iff hj hsized).mpr (hreturns hown hcore hpool)) hquiet

end HeapInv

end FCMalloc
