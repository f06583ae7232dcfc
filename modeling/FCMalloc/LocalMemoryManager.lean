import FCMalloc.MemoryLinkedListManager

/-!
# FCMalloc.LocalMemoryManager

The per-thread manager of `local_memory_manager.cpp` and the per-core pools of
`common_memory_pool.cpp`, over one store of free lists.

A `ListId` is a `MemoryLinkedListManager *`: an element of `memoryPools_` or of
`poolsPerCore_`. A manager holds such pointers, `malloc_` and one `free_[k]` for
each core. `mallocOwn` is the part of `LocalMemoryManager::Malloc` that runs
before the first lock; the pool refill is the section under `mtxsPerCore_[core]`.

Every operation moves whole prefixes of queues about and `Malloc` then takes the
front of one: each theorem names the moved queues (`ownQueues`, `poolQueues`) and
says that the result is their front.
-/

namespace FCMalloc

open ByteMemory

/-- A `MemoryLinkedListManager *`. -/
inductive ListId
  | nullptr
  | memoryPools (i : Nat)
  | poolsPerCore (core : Nat)
  deriving DecidableEq, Repr

/-- A queue of the allocator: a list and a size class. -/
abbrev QueueId := ListId × SizeClass

/-- `LocalMemoryManager`, without the pointers to the pool and the size table, of which
there is one each. -/
structure LocalMemoryManager where
  core : Nat
  coreN : Nat
  mallocList : ListId
  freeLists : Nat → ListId

/-! ### MemUtil -/

namespace MemUtil

/-- `PtrToSize`. -/
def ptrToSize (mem : Memory) (ptr : Nat) : Nat := readField mem (headerOf ptr) .size

/-- `PtrToCore`. `GetCore` returns the stored `size_t` as an `int`. -/
def ptrToCore (mem : Memory) (ptr : Nat) : Nat := u32 (readField mem (headerOf ptr) .core)

end MemUtil

/-! ### CommonMemoryPool -/

namespace CommonMemoryPool

/-- The loop of `Malloc`: up to `n` headers go from the core's pool to `mllm`. -/
def refill (s : Store ListId) (mllm : ListId) (core : Nat) (index : SizeClass) :
    (n : Nat) → Store ListId
  | 0 => s
  | n + 1 =>
      let r := s.pop (.poolsPerCore core) index
      if r.1 = 0 then r.2 else refill (r.2.push mllm index r.1) mllm core index n

/-- `Malloc`. The loop counts an `int` up to an `int`, so a negative entry of the
table gives no round. -/
def malloc [ClzZero] (c : Config) (s : Store ListId) (mllm : ListId) (core size : Nat) :
    Nat × Store ListId :=
  if size = 0 then (0, s)
  else
    let index := sizeClass size
    (refill s mllm core index (c.nPerSize index).toNat).malloc mllm size

/-- `Free`. -/
def free (s : Store ListId) (mllm : ListId) (core : Nat) : Store ListId :=
  s.join (.poolsPerCore core) mllm

end CommonMemoryPool

/-! ### LocalMemoryManager -/

namespace LocalMemoryManager

/-- `Init`. -/
def init (numCores : Nat) : LocalMemoryManager := ⟨0, numCores, .nullptr, fun _ => .nullptr⟩

/-- `SetCore`. -/
def setCore (m : LocalMemoryManager) (core : Nat) : LocalMemoryManager := { m with core }

/-- `SetMalloc`. -/
def setMalloc (m : LocalMemoryManager) (l : ListId) : LocalMemoryManager := { m with mallocList := l }

/-- `SetFree`. -/
def setFree (m : LocalMemoryManager) (core : Nat) (l : ListId) : LocalMemoryManager :=
  { m with freeLists := Function.update m.freeLists core l }

/-- `swap`. -/
def swap (m : LocalMemoryManager) (s : Store ListId) (index : SizeClass) : Store ListId :=
  s.swap m.mallocList (m.freeLists m.core) index

/-- `Malloc` as far as it needs no lock: the manager's own two lists. -/
def mallocOwn [ClzZero] (m : LocalMemoryManager) (s : Store ListId) (size : Nat) :
    Nat × Store ListId :=
  let r := s.malloc m.mallocList size
  if r.1 ≠ 0 then r else (m.swap r.2 (sizeClass size)).malloc m.mallocList size

/-- The `free_` list `Free` puts `ptr` on. -/
def freeList (m : LocalMemoryManager) (s : Store ListId) (ptr : Nat) : ListId :=
  m.freeLists (MemUtil.ptrToCore s.mem ptr)

/-- `Free`. -/
def free [ClzZero] (m : LocalMemoryManager) (s : Store ListId) (ptr : Nat) : Store ListId :=
  if ptr = 0 then s else s.free (m.freeList s ptr) ptr

/-- The round for core `i` of `AllFreeToCommonMemoryPool`. -/
def flushCore (m : LocalMemoryManager) (s : Store ListId) (i : Nat) : Store ListId :=
  if i ≠ m.core then CommonMemoryPool.free s (m.freeLists i) i else s

/-- `AllFreeToCommonMemoryPool`. -/
def allFreeToCommonMemoryPool (m : LocalMemoryManager) (s : Store ListId) : Store ListId :=
  forRange m.coreN (fun i s => m.flushCore s i) s

/-- `Join(core, lm)`. -/
def join (m : LocalMemoryManager) (s : Store ListId) (core : Nat) (lm : LocalMemoryManager) :
    Store ListId :=
  s.join m.mallocList (lm.freeLists core)

end LocalMemoryManager

/-! ### Lists that are left alone -/

section Frame

variable {c : Config} {s : Store ListId} {m : LocalMemoryManager} {l mllm : ListId}
  {core size : Nat} {i : SizeClass}

/-- `mallocOwn` works on the manager's own two lists. -/
theorem LocalMemoryManager.mallocOwn_lists (h : l ≠ m.mallocList) (h' : l ≠ m.freeLists m.core) :
    (m.mallocOwn s size).2.lists l = s.lists l := by
  unfold mallocOwn
  dsimp only
  split
  · exact Store.malloc_lists_of_ne h
  · rw [Store.malloc_lists_of_ne h, swap, Store.swap_lists_of_ne h h', Store.malloc_lists_of_ne h]

/-- Refilling from an empty pool assigns no cache. -/
theorem CommonMemoryPool.refill_lists {n : Nat} (hpool : s.head (.poolsPerCore core, i) = 0) :
    (refill s mllm core i n).lists = s.lists := by
  cases n with
  | zero => rfl
  | succ n =>
      have hpop : s.pop (.poolsPerCore core) i = (0, { s with errno := enomem }) :=
        if_pos (Or.inl hpool)
      rw [refill, hpop, if_pos rfl]

/-- With an empty pool `Malloc` works on the receiving list only. -/
theorem CommonMemoryPool.malloc_lists (hpool : s.head (.poolsPerCore core, sizeClass size) = 0)
    (h : l ≠ mllm) : (malloc c s mllm core size).2.lists l = s.lists l := by
  unfold malloc
  split
  · rfl
  · rw [Store.malloc_lists_of_ne h, refill_lists hpool]

end Frame

/-! ### Effects on the queues -/

section Effects

variable {c : Config} {N : Set Nat} {s : Store ListId} {q : QueueId → List Nat}
  {m : LocalMemoryManager} {mllm : ListId} {core size n a : Nat} {i : SizeClass}

/-- The front of a queue is null only if the queue is empty. -/
theorem frontBody_eq_zero {l : List Nat} : frontBody l = 0 ↔ l = [] := by
  cases l with
  | nil => simp [frontBody]
  | cons a l => simp [frontBody, headerSize]

theorem frontBody_cons_ne_zero {a : Nat} {l : List Nat} : frontBody (a :: l) ≠ 0 := fun h =>
  List.cons_ne_nil a l (frontBody_eq_zero.mp h)

namespace CommonMemoryPool

/-- **Refill** moves the first `n` headers of the pool, or all there are. -/
theorem refill_moved (h : Sound N s q) (hne : mllm ≠ .poolsPerCore core) :
    Moved N s (refill s mllm core i n) (moveFront q (.poolsPerCore core, i) (mllm, i) n) := by
  have hkeys : ((.poolsPerCore core, i) : QueueId) ≠ (mllm, i) :=
    fun heq => hne (congrArg Prod.fst heq).symm
  induction n generalizing s q with
  | zero =>
      rw [moveFront_of_nil List.take_zero]
      exact h.refl
  | succ n ih =>
      cases hpool : q (.poolsPerCore core, i) with
      | nil =>
          rw [refill, h.toRep.pop_nil hpool, if_pos rfl,
            moveFront_of_nil (by rw [hpool, List.take_nil])]
          exact h.moved h.toRep.setErrno (OnlyLinks.refl _)
      | cons a t =>
          obtain ⟨hret, hrep, hlinks⟩ := h.toRep.pop h.headers hpool
          have haN : a ∈ N := h.nodes _ a (by rw [hpool]; exact List.mem_cons_self)
          have hne0 : (s.pop (.poolsPerCore core) i).1 ≠ 0 := by
            rw [hret]
            exact Nat.ne_of_gt (h.headers.pos a haN)
          have hpopped := h.moved hrep hlinks
          have hloose : ∀ k, a ∉ dequeue q (.poolsPerCore core, i) k := by
            intro k hak
            by_cases hk : k = (.poolsPerCore core, i)
            · rw [hk, dequeue, Function.update_self, hpool, List.tail_cons] at hak
              have hnd := h.linked.sep.nodup (.poolsPerCore core, i)
              rw [hpool] at hnd
              exact (List.nodup_cons.mp hnd).1 hak
            · exact h.linked.sep.disjoint _ _ (Ne.symm hk) a (by simp [hpool])
                (mem_of_mem_dequeue hak)
          have hpushed := hpopped.sound.push (l := mllm) (i := i) haN hloose
          rw [refill, if_neg hne0, hret]
          convert Sound.trans (Sound.trans hpopped hpushed) (ih hpushed.sound) using 1
          funext k
          by_cases hkp : k = (.poolsPerCore core, i)
          · simp [moveFront, enqueue, dequeue, hkp, hkeys, hpool]
          · by_cases hkm : k = (mllm, i)
            · simp [moveFront, enqueue, dequeue, hkm, hkeys, Ne.symm hkeys, hpool]
            · simp [moveFront, enqueue, dequeue, hkp, hkm]

/-- The queues `Malloc` serves from, one batch of the pool moved to `mllm`. -/
def poolQueues (c : Config) (q : QueueId → List Nat) (mllm : ListId) (core : Nat)
    (i : SizeClass) : QueueId → List Nat :=
  moveFront q (.poolsPerCore core, i) (mllm, i) (c.nPerSize i).toNat

/-- **`CommonMemoryPool::Malloc`** refills `mllm` and takes its front. -/
theorem malloc_moved (h : Sound N s q) (hne : mllm ≠ .poolsPerCore core) (hsize : size ≠ 0) :
    (malloc c s mllm core size).1 =
        frontBody (poolQueues c q mllm core (sizeClass size) (mllm, sizeClass size)) ∧
      Moved N s (malloc c s mllm core size).2
        (dequeue (poolQueues c q mllm core (sizeClass size)) (mllm, sizeClass size)) := by
  have hrefill := refill_moved (i := sizeClass size) (n := (c.nPerSize (sizeClass size)).toNat) h hne
  obtain ⟨hptr, hmoved⟩ := hrefill.sound.malloc mllm size
  rw [malloc, if_neg hsize]
  exact ⟨hptr, Sound.trans hrefill hmoved⟩

end CommonMemoryPool

namespace LocalMemoryManager

/-- The queues `mallocOwn` serves from: `free_[core_]` is swapped in when the class is
empty on `malloc_`. -/
def ownQueues (m : LocalMemoryManager) (q : QueueId → List Nat) (i : SizeClass) :
    QueueId → List Nat :=
  if q (m.mallocList, i) = [] then swapped q (m.mallocList, i) (m.freeLists m.core, i) else q

/-- **`mallocOwn`** takes the front of the manager's own queues. -/
theorem mallocOwn_moved (h : Sound N s q) (hne : m.mallocList ≠ m.freeLists m.core)
    (size : Nat) :
    (m.mallocOwn s size).1 =
        frontBody (m.ownQueues q (sizeClass size) (m.mallocList, sizeClass size)) ∧
      Moved N s (m.mallocOwn s size).2
        (dequeue (m.ownQueues q (sizeClass size)) (m.mallocList, sizeClass size)) := by
  obtain ⟨hptr, hmoved⟩ := h.malloc m.mallocList size
  cases hq : q (m.mallocList, sizeClass size) with
  | nil =>
      have hzero : (s.malloc m.mallocList size).1 = 0 := by rw [hptr, hq, frontBody]
      have hown : m.ownQueues q (sizeClass size) =
          swapped q (m.mallocList, sizeClass size) (m.freeLists m.core, sizeClass size) := if_pos hq
      rw [dequeue_of_nil hq] at hmoved
      have hswap := hmoved.sound.swap (i := sizeClass size) hne
      obtain ⟨hptr', hmoved'⟩ := hswap.sound.malloc m.mallocList size
      rw [mallocOwn, if_neg (by simp [hzero]), hown]
      exact ⟨hptr', Sound.trans hmoved (Sound.trans hswap hmoved')⟩
  | cons a t =>
      have hown : m.ownQueues q (sizeClass size) = q := if_neg (by simp [hq])
      have hne0 : (s.malloc m.mallocList size).1 ≠ 0 := by
        rw [hptr, Ne, frontBody_eq_zero]
        simp [hq]
      rw [mallocOwn, if_pos hne0, hown]
      exact ⟨hptr, hmoved⟩

end LocalMemoryManager

end Effects

end FCMalloc
