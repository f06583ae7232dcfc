import FCMalloc.Library.Asserted
import FCMalloc.Machine

/-!
# FCMalloc.DebugBuild

The allocator as it is built with `DEBUG`: the functions of `FCMalloc.Machine` with every
`ASSERT` of the source in its place.

A failed `ASSERT` calls `abort()`, which is `none` here; `some` has what the function returns.
Everything between two assertions is that of the release build. The sections are those of
`Machine.act`, so an assertion in front of a lock belongs to the step before it. Of the
statistics of the debug build (`InclCounter`) there is what can end it: the assertions made on
the way to them and the division by `outIntvl_`. The counters themselves are read by nothing
but the line that logs them. `FCMalloc.DebugRuns` says when the two builds agree.
-/

namespace FCMalloc

open ByteMemory GlobalMemoryManager LocalMemoryManager Machine

/-- `ALIGN_CHECK`. -/
def alignCheck (v n : Nat) : Bool := decide (v ≠ 0) || decide (v % n = 0)

/-- **`ALIGN_CHECK` checks nothing**: it holds of every value. -/
@[simp] theorem alignCheck_eq (v n : Nat) : alignCheck v n = true := by
  unfold alignCheck
  rcases Nat.eq_zero_or_pos v with rfl | hpos
  · simp
  · simp [Nat.ne_of_gt hpos]

namespace Debug

variable {α : Type}

/-! ### Headers -/

/-- `MemoryLinkedList::Assert`. -/
def assertHeader (mem : Memory) (m : Nat) (rest : Option α) : Option α :=
  check (readField mem m .dummySpace = signature) <|
  check (readField mem m .core < readField mem m .coreN) <|
  check (0 < readField mem m .size) <|
  check (readField mem m .bodyAddr ≠ 0) rest

/-- `MemUtil::getList`, as `PtrToSize` and `PtrToCore` call it. -/
def getList (mem : Memory) (ptr : Nat) (rest : Option α) : Option α :=
  check (readField mem (headerOf ptr) .dummySpace = signature) <|
  assertHeader mem (headerOf ptr) rest

/-- `InclCounter`, whose remainder by zero ends the program like a failed assertion. -/
def inclCounter (c : Config) (ptr : Nat) (rest : Option α) : Option α :=
  if ptr ≠ 0 then check (c.outIntvl ≠ 0) rest else rest

/-! ### Lists -/

section Lists

variable (s : Store ListId) (l lm : ListId) (index : SizeClass)

/-- `MemoryLinkedListManager::append`. -/
def append (thead tlast : Nat) : Option (Store ListId) :=
  check (thead ≠ 0) <|
  check (tlast ≠ 0) <|
  check (s.next tlast = 0) <|
  let s := s.append l index thead tlast
  check (s.next (s.last (l, index)) = 0) <| some s

/-- `push`. -/
def push (m : Nat) : Option (Store ListId) := append s l index m m

/-- `pop`. -/
def pop : Option (Nat × Store ListId) :=
  if s.head (l, index) = 0 ∨ s.last (l, index) = 0 then some (0, { s with errno := enomem })
  else
    assertHeader s.mem (s.head (l, index)) <|
    let ret := s.head (l, index)
    let newHead := s.next ret
    let s := s.setNext ret 0
    if newHead ≠ 0 then assertHeader s.mem newHead <| some (ret, s.setHead l index newHead)
    else some (ret, (s.setLast l index 0).setHead l index newHead)

/-- `MemoryLinkedListManager::Malloc`. -/
def mallocFrom (size : Nat) : Option (Nat × Store ListId) :=
  let index := sizeClass size
  if s.head (l, index) = 0 ∨ s.last (l, index) = 0 then some (0, { s with errno := enomem })
  else
    assertHeader s.mem (s.head (l, index)) <|
    let ptr := readField s.mem (s.head (l, index)) .bodyAddr
    check (ptr ≠ 0) <|
    check (size ≤ readField s.mem (s.head (l, index)) .size) <|
    (pop s l index).map fun r => (ptr, r.2)

/-- `MemoryLinkedListManager::Free`. -/
def freeTo (ptr : Nat) : Option (Store ListId) :=
  if ptr = 0 then some s
  else
    let m := headerOf ptr
    assertHeader s.mem m <|
    check (s.next m = 0) <|
    push s l (sizeClass (readField s.mem m .size)) m

/-- One round of the loop of `Join`. -/
def joinClass (i : SizeClass) : Option (Store ListId) :=
  if s.head (lm, i) ≠ 0 then
    (append s l i (s.head (lm, i)) (s.last (lm, i))).map fun s =>
      (s.setHead lm i 0).setLast lm i 0
  else some s

/-- `MemoryLinkedListManager::Join`. -/
def joinList : Option (Store ListId) :=
  (List.finRange numClasses).foldlM (fun s i => joinClass s l lm i) s

end Lists

/-! ### Managers and pools -/

section Managers

variable (c : Config) (m : LocalMemoryManager) (s : Store ListId)

/-- `LocalMemoryManager::swap`, with `Swap`. -/
def swap (index : SizeClass) : Option (Store ListId) :=
  check (m.freeLists m.core ≠ .nullptr) <|
  check (index.val < numClasses) <|
  check (m.freeLists m.core ≠ .nullptr) <| some (m.swap s index)

/-- `LocalMemoryManager::Malloc` as far as it needs no lock. -/
def mallocOwn (size : Nat) : Option (Nat × Store ListId) :=
  (mallocFrom s m.mallocList size).bind fun r =>
    if r.1 ≠ 0 then some r
    else (swap m r.2 (sizeClass size)).bind fun s => mallocFrom s m.mallocList size

/-- `CommonMemoryPool::Malloc` in front of its lock. -/
def poolMallocEntry (core size : Nat) (rest : Option α) : Option α :=
  check (core < c.coreN) <|
  check (0 < c.nPerSize (sizeClass size)) rest

/-- The loop of `CommonMemoryPool::Malloc`. -/
def refill (s : Store ListId) (mllm : ListId) (core : Nat) (index : SizeClass) :
    (n : Nat) → Option (Store ListId)
  | 0 => some s
  | n + 1 =>
      (pop s (.poolsPerCore core) index).bind fun r =>
        if r.1 = 0 then some r.2
        else (push r.2 mllm index r.1).bind fun s => refill s mllm core index n

/-- `CommonMemoryPool::Malloc` from its lock on. -/
def poolMalloc (mllm : ListId) (core size : Nat) : Option (Nat × Store ListId) :=
  if size = 0 then some (0, s)
  else
    let index := sizeClass size
    (refill s mllm core index (c.nPerSize index).toNat).bind fun s => mallocFrom s mllm size

/-- `LocalMemoryManager::Free`, with the call of `PtrToSize` for `InclCounter`. -/
def freeBlock (ptr : Nat) : Option (Store ListId) :=
  if ptr = 0 then some s
  else
    check (m.freeLists m.core ≠ .nullptr) <|
    getList s.mem ptr <|
    (freeTo s (m.freeList s ptr) ptr).bind fun s =>
      getList s.mem ptr <| inclCounter c ptr <| some s

/-- `AllFreeToCommonMemoryPool` up to its loop. -/
def allFreeEntry (rest : Option α) : Option α := check (m.freeLists m.core ≠ .nullptr) rest

/-- `CommonMemoryPool::Free` in front of its lock, in the round for core `i`. -/
def poolFreeEntry (i : Nat) (rest : Option α) : Option α :=
  if i ≠ m.core then check (i < c.coreN) rest else rest

/-- The round for core `i` of `AllFreeToCommonMemoryPool`, from its lock on. -/
def flushCore (i : Nat) : Option (Store ListId) :=
  if i ≠ m.core then joinList s (.poolsPerCore i) (m.freeLists i) else some s

end Managers

/-! ### Leases -/

section Leasing

variable (c : Config) (g : GlobalMemoryManager)

/-- `AllocLocalMemoryManager`. -/
def allocLocalMemoryManager (core : Nat) : Option (Nat × GlobalMemoryManager) :=
  let r := GlobalMemoryManager.allocLocalMemoryManager c g core
  r.1.map (·, r.2)

/-- The innermost step of `FreeLocalMemoryManager`. -/
def handBackTo (m i k ii : Nat) (s : Store ListId) : Option (Store ListId) :=
  if i = ii then some s
  else if !g.poolFlags (c.poolN * k + ii) then
    joinList s (managerPools c (c.poolN * k + ii)).mallocList ((managerPools c m).freeLists k)
  else some s

/-- The two inner loops of `FreeLocalMemoryManager`. -/
def handBack (m i : Nat) (s : Store ListId) : Option (Store ListId) :=
  forRangeChecked c.coreN
    (fun k s => forRangeChecked c.poolN (fun ii s => handBackTo c g m i k ii s) s) s

/-- `FreeLocalMemoryManager(&managerPools_[m])`. -/
def freeLocalMemoryManager (s : Store ListId) (m : Nat) :
    Option (GlobalMemoryManager × Store ListId) :=
  let offset := nextOffset g.freeOffset c.coreN
  let g := { g with freeOffset := offset }
  let found := (scanOrder c offset).find? fun slot =>
    g.poolFlags (c.poolN * slot.1 + slot.2) && decide (c.poolN * slot.1 + slot.2 = m)
  match found with
  | some (core, i) =>
      (handBack c g m i s).map fun s =>
        ({ g with poolFlags := Function.update g.poolFlags (c.poolN * core + i) false }, s)
  | none => none

end Leasing

/-! ### Carving -/

section Carving

variable (c : Config)

/-- `allocateMemoryLinkedList` in front of `mm.Malloc`, and that in front of its lock. -/
def allocateEntry (core size n : Nat) (rest : Option α) : Option α :=
  check (core < c.coreN) <|
  check (0 < size) <|
  check (0 < n) <|
  check (alignCheck (bodySize size) 8) <|
  check (alignCheck headerSize 16) <|
  check (!addCausesOverflow (bodySize size) (align headerSize 16)) <|
  check (alignCheck (mmapSize c size n) c.pageSize) <|
  check (core < c.coreN ∨ core = c.mainThreadIndex) rest

/-- `MmapManager::Malloc` from its lock to its first `printf`, with `FirstTouch` and
`ExtendBuffer`. The inner `none` is `FirstTouch` that does not return. -/
def enter (main : Bool) (mm : MmapManager) (core size ret : Nat) :
    Option (Option (Option Nat × MmapManager × List Nat)) :=
  let core := c.arena main core
  check (mm.firstTouchFlag core ∨ core < c.coreN ∨ core = c.mainThreadIndex) <|
  match mm.touchOnce c main core with
  | none => some none
  | some touch =>
      let mm := touch.1
      if mm.needsExtension c core size then
        check (mm.extendOffset < MmapManager.extendMax) <|
        check (ret ≠ mapFailed) <| some (some (none, mm.extend c core size ret, touch.2))
      else
        let r := mm.serve core size
        some (some (some r.1, r.2, touch.2))

/-- One round of the carving loop, with `SetCore`. -/
def carveOne (numCores core bodySize totalSize : Nat) (s : Carving) : Option Carving :=
  let m := s.buffer
  check (core < readField (initHeader s.mem m numCores) m .coreN) <|
  let s := FCMalloc.carveOne numCores core bodySize totalSize s
  check (alignCheck (readField s.mem m .bodyAddr) 16) <| some s

/-- The carving loop. The inner `none` is a loop that has not ended after `fuel` tests. -/
def carveLoop (numCores core bodySize totalSize n : Nat) :
    (fuel : Nat) → (i : Nat) → Carving → Option (Option Carving)
  | 0, _, _ => some none
  | fuel + 1, i, s =>
      if i < n then
        (carveOne numCores core bodySize totalSize s).bind fun s =>
          carveLoop numCores core bodySize totalSize n fuel (u32 (i + 1)) s
      else some (some s)

/-- `allocateMemoryLinkedList` from the return of `mm.Malloc` on, which gave `p`. -/
@[irreducible] def carve (mem : Memory) (core size n p : Nat) :
    Option (Option (MemoryLinkedListResult × Memory × List Block)) :=
  check (alignCheck p 16) <|
  (carveLoop c.coreN core (bodySize size) (totalSize size) n (2 ^ 32 + 1) 0
    ⟨mem, p, 0, 0, []⟩).map fun t => t.map fun s => (⟨p, s.head, s.pre⟩, s.mem, s.carved)

/-- `MemoryLinkedListManager::Allocate` from the return of `mm.Malloc` on. -/
def carveInto (s : Process) (l : ListId) (core size n p : Nat) : Option (Option Process) :=
  (carve c s.store.mem core size n p).bind fun carved =>
    match carved with
    | none => some none
    | some r =>
        let s := s.setMem r.2.1
        (append s.store l (sizeClass size) r.1.head r.1.last).map fun store =>
          some { s with store, carved := s.carved ++ r.2.2 }

/-- The last step of `LocalMemoryManager::Malloc`. -/
def mallocLast (m : LocalMemoryManager) (s : Process) (size : Nat) : Option (Nat × Process) :=
  (mallocFrom s.store m.mallocList size).map fun r =>
    (r.1, { s with store := if r.1 = 0 then { r.2 with errno := enomem } else r.2 })

end Carving

/-! ### The functions up to their first mutex operation -/

section Calls

variable (c : Config) (main : Bool) (s : Shared) (th : Thread)

/-- The end of `Malloc`, which returns `ptr`, and the rest of its caller. -/
def finish (r : Request) (ptr : Nat) : Option Shared :=
  inclCounter c ptr <|
  match r.caller with
  | .malloc => some (s.finish c r ptr)
  | .calloc => check (alignCheck ptr 16) <| some (s.finish c r ptr)
  | .realloc old preSize =>
      if ptr = 0 then some (s.finish c r 0)
      else
        let heap := s.heap.setMem (copy s.heap.store.mem ptr old preSize)
        (freeBlock c (r.lm c) heap.store old).map fun store =>
          { heap := { heap with store }
            live := ptr :: s.live.erase old
            returned := ⟨some (r.lm c).core, r.size, ptr⟩ :: s.returned }

/-- `threadInit`. -/
def threadInit (core : Nat) : Option Result :=
  (allocLocalMemoryManager c s.heap.g core).bind fun _ => some (Machine.threadInit c s th core)

/-- `threadTerm`. -/
def threadTerm : Option Result :=
  match th.lp with
  | none => some (.next s { th with exited := true })
  | some j =>
      (freeLocalMemoryManager c s.heap.g s.heap.store j).map fun r =>
        .next { s with heap := { s.heap with g := r.1, store := r.2 } }
          { th with exited := true, lp := none }

/-- `LocalMemoryManager::Malloc`. -/
def enterMalloc (r : Request) : Option Result :=
  if r.size = 0 then (finish c s r 0).map (.next · th)
  else
    check ((r.lm c).mallocList ≠ .nullptr) <|
    (mallocOwn (r.lm c) s.heap.store r.size).bind fun own =>
      let s := s.setStore own.2
      if own.1 ≠ 0 then (finish c s r own.1).map (.next · th)
      else poolMallocEntry c (r.lm c).core r.size <| some (.next s (th.push (.pool r)))

/-- `malloc`, also as `calloc` and `realloc` call it. -/
def malloc (size : Nat) (caller : Caller) : Option Result :=
  if size = 0 then some (.next s th)
  else
    match th.lp with
    | none => none
    | some j => enterMalloc c s th ⟨j, size, caller⟩

/-- `calloc`. -/
def calloc (nmemb size : Nat) : Option Result :=
  if nmemb = 0 ∨ size = 0 then some (.next s th)
  else malloc c s th (u64 (nmemb * size)) .calloc

/-- `realloc`, with `LocalMemoryManager::Realloc`. -/
def realloc (ptr size : Nat) : Option Result :=
  if ptr = 0 then malloc c s th size .malloc
  else
    check (alignCheck ptr 16) <|
    match th.lp with
    | none => none
    | some j =>
        assertHeader s.heap.store.mem (headerOf ptr) <|
        let preSize := MemUtil.ptrToSize s.heap.store.mem ptr
        if size ≤ preSize then
          some (.next { s with returned := ⟨none, size, ptr⟩ :: s.returned } th)
        else enterMalloc c s th ⟨j, size, .realloc ptr preSize⟩

/-- `GlobalMemoryManager::Free` up to its lease. -/
def lateFree (ptr : Nat) : Option Result :=
  getList s.heap.store.mem ptr <|
  (allocLocalMemoryManager c s.heap.g (MemUtil.ptrToCore s.heap.store.mem ptr)).map fun r =>
    .next { s with heap := { s.heap with g := r.2 } } (th.push (.freeing r.1 ptr))

/-- The counting of `free`. -/
def countFree (j ptr : Nat) : Option Thread :=
  getList s.heap.store.mem ptr <|
  let index := sizeClass (MemUtil.ptrToSize s.heap.store.mem ptr)
  check (0 < c.nPerSize index) <|
  let cnts := Function.update th.cntsPerSize index (i32 (th.cntsPerSize index + 1))
  if main ∧ cnts index > c.nPerSize index then
    allFreeEntry (managerPools c j) <|
    poolFreeEntry c (managerPools c j) 0 <|
    some ({ th with cntsPerSize := fun _ => 0 }.push (.flush j 0))
  else some { th with cntsPerSize := cnts }

/-- `free`. -/
def free (ptr : Nat) : Option Result :=
  if ptr = 0 then some (.next s th)
  else
    check (alignCheck ptr 16) <|
    match th.lp with
    | none => lateFree c s th ptr
    | some j =>
        (freeBlock c (managerPools c j) s.heap.store ptr).bind fun store =>
          let s := { s.setStore store with live := s.live.erase ptr }
          (countFree c main s th j ptr).map (.next s ·)

/-- `AllFreeToCommonMemoryPool`. -/
def allFree : Option Result :=
  match th.lp with
  | none => none
  | some j =>
      allFreeEntry (managerPools c j) <|
      poolFreeEntry c (managerPools c j) 0 <| some (.next s (th.push (.flush j 0)))

/-! ### The functions from a mutex operation on -/

/-- `Malloc` once the arena has given it `p`. -/
def serve (r : Request) (p : Nat) : Option Result :=
  (carveInto c s.heap (r.lm c).mallocList (r.lm c).core r.size (r.n c) p).bind fun carved =>
    match carved with
    | none => some .never
    | some heap =>
        (mallocLast (r.lm c) heap r.size).bind fun last =>
          (finish c { s with heap := last.2 } r last.1).map (.next · th)

/-- Go on with frame `f`, which has been taken off the stack. -/
def resume (ret : Nat) : Frame → Option Result
  | .pool r =>
      (poolMalloc c s.heap.store (r.lm c).mallocList (r.lm c).core r.size).bind fun pooled =>
        let s := s.setStore pooled.2
        if pooled.1 ≠ 0 then (finish c s r pooled.1).map (.next · th)
        else
          allocateEntry c (r.lm c).core r.size (r.n c) <| some (.next s (th.push (.allocate r)))
  | .allocate r =>
      (enter c main s.heap.mm (r.lm c).core (r.mmapSize c) ret).bind fun entered =>
        match entered with
        | none => some .never
        | some (served, mm, touched) =>
            let s := { s with heap := s.heap.touch mm touched }
            match served with
            | some p => serve c s th r p
            | none => some (.next s (th.push (.printing r .extended)))
  | .printing r .extended => some (.next s (th.push (.printing r .reporting)))
  | .printing r .reporting => some (.next s (th.push (.printing r .reported)))
  | .printing r .reported =>
      let a := r.arena c main
      if s.heap.mm.restSize a < r.mmapSize c then some (.next s (th.push (.printing r .exhausted)))
      else
        let served := s.heap.mm.serve a (r.mmapSize c)
        serve c (s.setMm served.2) th r served.1
  | .printing _ .exhausted => none
  | .freeing j ptr =>
      (freeBlock c (managerPools c j) s.heap.store ptr).map fun store =>
        .next { s.setStore store with live := s.live.erase ptr } (th.push (.release j))
  | .release j =>
      (freeLocalMemoryManager c s.heap.g s.heap.store j).map fun r =>
        .next { s with heap := { s.heap with g := r.1, store := r.2 } } th
  | .flush j i =>
      (flushCore (managerPools c j) s.heap.store i).bind fun store =>
        let s := s.setStore store
        if i + 1 < (managerPools c j).coreN then
          poolFreeEntry c (managerPools c j) (i + 1) <|
          some (.next s (th.push (.flush j (i + 1))))
        else some (.next s th)

/-- What an action of a thread does. -/
def act : Action → Option Result
  | .start core => threadInit c s th core
  | .exit => threadTerm c s th
  | .malloc size => malloc c s th size .malloc
  | .calloc nmemb size => calloc c s th nmemb size
  | .realloc ptr size => realloc c s th ptr size
  | .free ptr => free c main s th ptr
  | .allFree => allFree c s th
  | .store addr v =>
      some (.next { s with heap := s.heap.setMem (Function.update s.heap.store.mem addr v) } th)
  | .resume ret =>
      match th.stack with
      | [] => some .never
      | f :: rest => resume c main s { th with stack := rest } ret f

end Calls

end Debug

end FCMalloc
