import FCMalloc.GlobalMemoryManager

/-!
# FCMalloc.Allocator

The whole state of the process and the calls that run through all layers: carving a
batch into a list (`allocateMemoryLinkedList`, `MemoryLinkedListManager::Allocate`),
`LocalMemoryManager::Malloc` and `Realloc`, and the functions of `fcmalloc.cpp`.

Here a call runs from start to end without interruption. `FCMalloc.Machine` runs the
same pieces (`mallocOwn`, `CommonMemoryPool::Malloc`, `carveInto`, `mallocLast`) as
separate steps between which other threads may move.

A call that extends its arena reports it with `printf`, under the arena's mutex, and `printf`
may itself call `malloc`, as it does for the buffer of `stdout`. What it asks for is an input:
`asked` lists the sizes, in order.

`none` is a call that never returns: `FirstTouch` or the carving loop diverges, or a `malloc`
of the report locks the arena's mutex again.
-/

namespace FCMalloc

open ByteMemory GlobalMemoryManager

/-- The shared state. `carved` is history: every block `allocateMemoryLinkedList` made. -/
structure Process where
  store : Store ListId
  mm : MmapManager
  g : GlobalMemoryManager
  carved : List Block

namespace Process

/-- The state after `mainInit`, where the `mmap` of arena `i` returned `base i`. -/
def init (c : Config) (base : Nat → Nat) (mem : Memory) : Process where
  store := ⟨mem, initLists c, 0⟩
  mm := MmapManager.init c base
  g := GlobalMemoryManager.init c
  carved := []

def setMem (s : Process) (mem : Memory) : Process := { s with store := { s.store with mem } }

/-- The state after `MmapManager::Malloc` left `mm` and cleared the bytes `touched`. -/
def touch (s : Process) (mm : MmapManager) (touched : List Nat) : Process :=
  { s.setMem (clear s.store.mem touched) with mm }

/-- `MemoryLinkedListManager::Allocate` from the return of `mm.Malloc` on, which gave `p`:
carve `n` blocks there and append them. -/
def carveInto [ClzZero] (c : Config) (s : Process) (l : ListId) (core size n p : Nat) :
    Option Process :=
  (carve c s.store.mem core size n p).map fun r =>
    let s := s.setMem r.2.1
    { s with
      store := s.store.append l (sizeClass size) r.1.head r.1.last
      carved := s.carved ++ r.2.2 }

/-- `MemoryLinkedListManager::Allocate`, with `allocateMemoryLinkedList` and
`MmapManager::Malloc` in it. `report` is what the report of an extension does to the lists. -/
def allocate [ClzZero] (c : Config) (mainThreadFlag : Bool) (s : Process) (l : ListId)
    (core size n : Nat) (ret : Nat) (report : Store ListId → Option (Store ListId)) :
    Option Process :=
  (s.mm.enter c mainThreadFlag core (mmapSize c size n) ret).bind fun e =>
    let s := s.touch e.2.1 e.2.2
    match e.1 with
    | some p => s.carveInto c l core size n p
    | none =>
        (report s.store).bind fun store =>
          let r := s.mm.finishExtended (c.arena mainThreadFlag core) (mmapSize c size n)
          { s with store, mm := r.2 }.carveInto c l core size n r.1

/-- With a report that asks for nothing, `MmapManager::Malloc` is one call. -/
theorem allocate_silent {c : Config} {main : Bool} {s : Process} {l : ListId}
    {core size n ret : Nat} : s.allocate c main l core size n ret some =
      (s.mm.malloc c main core (mmapSize c size n) ret).bind fun r =>
        (s.touch r.2.1 r.2.2).carveInto c l core size n r.1 := by
  rw [allocate, MmapManager.malloc_eq, Option.bind_map]
  congr 1
  funext ⟨served, mm, touched⟩
  cases served with
  | some p => rfl
  | none =>
      cases h : mm.finishExtended (c.arena main core) (mmapSize c size n) with
      | mk p mm' =>
          simp only [Function.comp_apply, MmapManager.leave, Option.bind_some, touch, setMem, h]

/-- Only a request for at least one block extends an arena. -/
theorem batch_pos_of_needsExtension {c : Config} {mm : MmapManager} {a size n : Nat}
    (h : mm.needsExtension c a (mmapSize c size n) = true) : 0 < n := by
  by_contra hzero
  rw [Nat.eq_zero_of_not_pos hzero, mmapSize_zero] at h
  simp [MmapManager.needsExtension] at h

/-- Without an extension there is no report. -/
theorem allocate_quiet {c : Config} {main : Bool} {s : Process} {l : ListId}
    {core size n ret : Nat} {report : Store ListId → Option (Store ListId)}
    (hreport : s.mm.needsExtension c (c.arena main core) (mmapSize c size n) = true →
      report = some) :
    s.allocate c main l core size n ret report = s.allocate c main l core size n ret some := by
  by_cases hneed : s.mm.needsExtension c (c.arena main core) (mmapSize c size n) = true
  · rw [hreport hneed]
  · unfold allocate
    refine Option.bind_congr fun e he => ?_
    obtain ⟨p, hp⟩ := MmapManager.served_of_enter he (Bool.eq_false_iff.mpr hneed)
    dsimp only
    rw [hp]

end Process

namespace LocalMemoryManager

/-- The last step of `Malloc`, after `Allocate`. -/
def mallocLast [ClzZero] (m : LocalMemoryManager) (s : Process) (size : Nat) : Nat × Process :=
  let r := s.store.malloc m.mallocList size
  (r.1, { s with store := if r.1 = 0 then { r.2 with errno := enomem } else r.2 })

/-- `Malloc` as the `printf` of a report calls it: at the arena it locks the mutex the report
is made under. -/
def mallocPrinting [ClzZero] (c : Config) (m : LocalMemoryManager) (s : Store ListId) (size : Nat) :
    Option (Store ListId) :=
  if size = 0 then some s
  else
    let own := m.mallocOwn s size
    if own.1 ≠ 0 then some own.2
    else
      let pooled := CommonMemoryPool.malloc c own.2 m.mallocList m.core size
      if pooled.1 ≠ 0 then some pooled.2 else none

/-- The report of an extension, whose `printf` asks for `asked`. -/
def report [ClzZero] (c : Config) (m : LocalMemoryManager) (asked : List Nat) (s : Store ListId) :
    Option (Store ListId) :=
  asked.foldlM (m.mallocPrinting c) s

/-- A `printf` that asks for no bytes takes nothing. -/
theorem report_zeros {c : Config} {m : LocalMemoryManager} {asked : List Nat}
    (hzero : ∀ n ∈ asked, n = 0) : m.report c asked = some := by
  funext s
  induction asked with
  | nil => rfl
  | cons n asked ih =>
      rw [report, List.foldlM_cons, hzero n List.mem_cons_self]
      exact ih fun n hn => hzero n (List.mem_cons_of_mem _ hn)

/-- `Malloc`. -/
def malloc [ClzZero] (c : Config) (mainThreadFlag : Bool) (m : LocalMemoryManager) (s : Process)
    (size : Nat) (ret : Nat) (asked : List Nat) : Option (Nat × Process) :=
  if size = 0 then some (0, s)
  else
    let own := m.mallocOwn s.store size
    if own.1 ≠ 0 then some (own.1, { s with store := own.2 })
    else
      let pooled := CommonMemoryPool.malloc c own.2 m.mallocList m.core size
      if pooled.1 ≠ 0 then some (pooled.1, { s with store := pooled.2 })
      else
        let n := c.batch (sizeClass size)
        let s := { s with store := pooled.2 }
        (s.allocate c mainThreadFlag m.mallocList m.core size n ret (m.report c asked)).map
          (m.mallocLast · size)

/-- The end of `Realloc`: `memcpy`, then `Free` of the old block. -/
def moveBody [ClzZero] (m : LocalMemoryManager) (s : Process) (newPtr ptr preSize : Nat) :
    Process :=
  let s := s.setMem (copy s.store.mem newPtr ptr preSize)
  { s with store := m.free s.store ptr }

/-- `Realloc`. -/
def realloc [ClzZero] (c : Config) (mainThreadFlag : Bool) (m : LocalMemoryManager) (s : Process)
    (ptr size : Nat) (ret : Nat) (asked : List Nat) : Option (Nat × Process) :=
  if ptr = 0 then m.malloc c mainThreadFlag s size ret asked
  else
    let preSize := MemUtil.ptrToSize s.store.mem ptr
    if size ≤ preSize then some (ptr, s)
    else
      (m.malloc c mainThreadFlag s size ret asked).map fun r =>
        if r.1 ≠ 0 then (r.1, m.moveBody r.2 r.1 ptr preSize) else (0, r.2)

end LocalMemoryManager

/-! ### fcmalloc.cpp

`lp` is the manager the calling thread has leased. -/

namespace Api

/-- `malloc`. -/
def malloc [ClzZero] (c : Config) (mainThreadFlag : Bool) (lp : LocalMemoryManager) (s : Process)
    (size : Nat) (ret : Nat) (asked : List Nat) : Option (Nat × Process) :=
  if size = 0 then some (0, s) else lp.malloc c mainThreadFlag s size ret asked

/-- `calloc`. -/
def calloc [ClzZero] (c : Config) (mainThreadFlag : Bool) (lp : LocalMemoryManager) (s : Process)
    (nmemb size : Nat) (ret : Nat) (asked : List Nat) : Option (Nat × Process) :=
  if nmemb = 0 ∨ size = 0 then some (0, s)
  else
    let totalSize := u64 (nmemb * size)
    (malloc c mainThreadFlag lp s totalSize ret asked).map fun r =>
      if r.1 ≠ 0 then (r.1, r.2.setMem (fill r.2.store.mem r.1 totalSize 0)) else r

/-- `realloc`. -/
def realloc [ClzZero] (c : Config) (mainThreadFlag : Bool) (lp : LocalMemoryManager) (s : Process)
    (ptr size : Nat) (ret : Nat) (asked : List Nat) : Option (Nat × Process) :=
  if ptr = 0 then malloc c mainThreadFlag lp s size ret asked
  else lp.realloc c mainThreadFlag s ptr size ret asked

end Api

end FCMalloc
