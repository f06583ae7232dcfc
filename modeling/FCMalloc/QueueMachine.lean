import FCMalloc.MallocPaths
import FCMalloc.OwnershipRuns

/-!
# FCMalloc.QueueMachine

The allocator without its memory.

Here a list is the queue of the blocks on it, a block is what was carved, and there are no
headers, links or bytes. Everything else is that of `FCMalloc.Machine`: the sections between
two mutex operations, the threads, the arenas and the leases. So this is what the allocator is
meant to do with blocks, and `FCMalloc.QueueSimulation` shows that the machine does just that,
step by step.
-/

namespace FCMalloc.QueueMachine

open GlobalMemoryManager LocalMemoryManager Machine

/-- The shared state: the blocks on each list by their addresses, and the rest as it is. -/
structure State where
  queues : QueueId → List Nat
  mm : MmapManager
  g : GlobalMemoryManager
  carved : List Block
  live : List Nat
  returned : List Returned

/-- What becomes of a section. -/
inductive Result
  | next (σ : State) (th : Thread)
  | never
  | nullManager

namespace State

variable (c : Config) (σ : State)

/-- The block at a pointer. -/
def block? (ptr : Nat) : Option Block := σ.carved.find? fun b => b.body = ptr

/-- The size of the block at a pointer. -/
def sizeAt (ptr : Nat) : Nat := ((σ.block? ptr).map Block.size).getD 0

/-- The core of the block at a pointer. -/
def coreAt (ptr : Nat) : Nat := ((σ.block? ptr).map Block.core).getD 0

def setQueues (queues : QueueId → List Nat) : State := { σ with queues }

/-- Take the front of a queue: its body, or null if there is none. -/
def take (k : QueueId) : Nat × State :=
  (frontBody (σ.queues k), σ.setQueues (dequeue σ.queues k))

/-- Put the block at `ptr` on the `free_` list of its core. -/
def free (m : LocalMemoryManager) (ptr : Nat) : State where
  queues := enqueue σ.queues (m.freeLists (σ.coreAt ptr), sizeClass (σ.sizeAt ptr)) [headerOf ptr]
  mm := σ.mm
  g := σ.g
  carved := σ.carved
  live := σ.live.erase ptr
  returned := σ.returned

/-- The state once `Malloc` has returned `ptr` and its caller has returned too. -/
def finish (r : Request) (ptr : Nat) : State :=
  let σ := { σ with returned := ⟨some (r.lm c).core, r.size, ptr⟩ :: σ.returned }
  if ptr = 0 then σ
  else
    match r.caller.old with
    | none => { σ with live := ptr :: σ.live }
    | some old => { σ.free (r.lm c) old with live := ptr :: σ.live.erase old }

end State

/-! ### Leases -/

/-- The innermost step of `FreeLocalMemoryManager`. -/
def handBackTo (c : Config) (g : GlobalMemoryManager) (m i k ii : Nat) (q : QueueId → List Nat) :
    QueueId → List Nat :=
  if i = ii then q
  else if !g.poolFlags (c.poolN * k + ii) then
    Rep.joined q (managerPools c (c.poolN * k + ii)).mallocList ((managerPools c m).freeLists k)
  else q

/-- The two inner loops of `FreeLocalMemoryManager`. -/
def handBack (c : Config) (g : GlobalMemoryManager) (m i : Nat) (q : QueueId → List Nat) :
    QueueId → List Nat :=
  forRange c.coreN (fun k q => forRange c.poolN (fun ii q => handBackTo c g m i k ii q) q) q

/-- `FreeLocalMemoryManager(&managerPools_[m])`. -/
def freeLocalMemoryManager (c : Config) (g : GlobalMemoryManager) (q : QueueId → List Nat)
    (m : Nat) : GlobalMemoryManager × (QueueId → List Nat) :=
  let offset := nextOffset g.freeOffset c.coreN
  let g := { g with freeOffset := offset }
  let found := (scanOrder c offset).find? fun slot =>
    g.poolFlags (c.poolN * slot.1 + slot.2) && decide (c.poolN * slot.1 + slot.2 = m)
  match found with
  | some (core, i) =>
      ({ g with poolFlags := Function.update g.poolFlags (c.poolN * core + i) false },
        handBack c g m i q)
  | none => (g, q)

/-! ### The functions up to their first mutex operation -/

section Calls

variable (c : Config) (main : Bool) (σ : State) (th : Thread)

/-- `threadInit`. -/
def threadInit (core : Nat) : Result :=
  let r := allocLocalMemoryManager c σ.g core
  let granted := (List.range c.poolN).any fun i => !σ.g.poolFlags (c.poolN * core + i)
  .next { σ with g := r.2 } { th with started := true, granted, lp := r.1 }

/-- `threadTerm`. -/
def threadTerm : Result :=
  match th.lp with
  | none => .next σ { th with exited := true }
  | some j =>
      let r := freeLocalMemoryManager c σ.g σ.queues j
      .next { σ with g := r.1, queues := r.2 } { th with exited := true, lp := none }

/-- `LocalMemoryManager::Malloc`. -/
def enterMalloc (r : Request) : Result :=
  if r.size = 0 then .next (σ.finish c r 0) th
  else
    let i := sizeClass r.size
    let own := (σ.setQueues ((r.lm c).ownQueues σ.queues i)).take ((r.lm c).ownQueue i)
    if own.1 ≠ 0 then .next (own.2.finish c r own.1) th else .next own.2 (th.push (.pool r))

/-- `malloc`. -/
def malloc (size : Nat) (caller : Caller) : Result :=
  if size = 0 then .next σ th
  else
    match th.lp with
    | none => .nullManager
    | some j => enterMalloc c σ th ⟨j, size, caller⟩

/-- `calloc`. -/
def calloc (nmemb size : Nat) : Result :=
  if nmemb = 0 ∨ size = 0 then .next σ th
  else malloc c σ th (u64 (nmemb * size)) .calloc

/-- `realloc`, with `LocalMemoryManager::Realloc`. -/
def realloc (ptr size : Nat) : Result :=
  if ptr = 0 then malloc c σ th size .malloc
  else
    match th.lp with
    | none => .nullManager
    | some j =>
        if size ≤ σ.sizeAt ptr then .next { σ with returned := ⟨none, size, ptr⟩ :: σ.returned } th
        else enterMalloc c σ th ⟨j, size, .realloc ptr (σ.sizeAt ptr)⟩

/-- `GlobalMemoryManager::Free` up to its lease. -/
def lateFree (ptr : Nat) : Result :=
  let r := allocLocalMemoryManager c σ.g (σ.coreAt ptr)
  match r.1 with
  | none => .nullManager
  | some j => .next { σ with g := r.2 } (th.push (.freeing j ptr))

/-- The counting of `free`. -/
def countFree (j ptr : Nat) : Thread :=
  let index := sizeClass (σ.sizeAt ptr)
  let cnts := Function.update th.cntsPerSize index (i32 (th.cntsPerSize index + 1))
  if main ∧ cnts index > c.nPerSize index then
    { th with cntsPerSize := fun _ => 0 }.push (.flush j 0)
  else { th with cntsPerSize := cnts }

/-- `free`. -/
def free (ptr : Nat) : Result :=
  if ptr = 0 then .next σ th
  else
    match th.lp with
    | none => lateFree c σ th ptr
    | some j => .next (σ.free (managerPools c j) ptr) (countFree c main σ th j ptr)

/-- `AllFreeToCommonMemoryPool`. -/
def allFree : Result :=
  match th.lp with
  | none => .nullManager
  | some j => .next σ (th.push (.flush j 0))

/-! ### The functions from a mutex operation on -/

/-- `Malloc` once the arena has given it `p`. -/
def serve (r : Request) (p : Nat) : Result :=
  let k := (r.lm c).ownQueue (sizeClass r.size)
  let new := blocksFrom p (totalSize r.size) (r.lm c).core (bodySize r.size) (r.n c)
  let carved := { σ.setQueues (enqueue σ.queues k (new.map Block.addr)) with
    carved := σ.carved ++ new }
  let last := carved.take k
  .next (last.2.finish c r last.1) th

/-- Go on with frame `f`, which has been taken off the stack. -/
def resume (ret : Nat) : Frame → Result
  | .pool r =>
      let i := sizeClass r.size
      let pooled := (σ.setQueues (CommonMemoryPool.poolQueues c σ.queues (r.lm c).mallocList
        (r.lm c).core i)).take ((r.lm c).ownQueue i)
      if pooled.1 ≠ 0 then .next (pooled.2.finish c r pooled.1) th
      else .next pooled.2 (th.push (.allocate r))
  | .allocate r =>
      match σ.mm.enter c main (r.lm c).core (r.mmapSize c) ret with
      | none => .never
      | some (some p, mm, _) => serve c { σ with mm } th r p
      | some (none, mm, _) => .next { σ with mm } (th.push (.printing r .extended))
  | .printing r .extended => .next σ (th.push (.printing r .reporting))
  | .printing r .reporting => .next σ (th.push (.printing r .reported))
  | .printing r .reported =>
      let a := r.arena c main
      if σ.mm.restSize a < r.mmapSize c then .next σ (th.push (.printing r .exhausted))
      else
        let served := σ.mm.serve a (r.mmapSize c)
        serve c { σ with mm := served.2 } th r served.1
  | .printing r .exhausted => serve c σ th r 0
  | .freeing j ptr => .next (σ.free (managerPools c j) ptr) (th.push (.release j))
  | .release j =>
      let r := freeLocalMemoryManager c σ.g σ.queues j
      .next { σ with g := r.1, queues := r.2 } th
  | .flush j i =>
      .next (σ.setQueues (HeapInv.flushQueues (managerPools c j) σ.queues i))
        (if i + 1 < (managerPools c j).coreN then th.push (.flush j (i + 1)) else th)

/-- What an action of a thread does. A byte that is written makes no difference here. -/
def act : Action → Result
  | .start core => threadInit c σ th core
  | .exit => threadTerm c σ th
  | .malloc size => malloc c σ th size .malloc
  | .calloc nmemb size => calloc c σ th nmemb size
  | .realloc ptr size => realloc c σ th ptr size
  | .free ptr => free c main σ th ptr
  | .allFree => allFree σ th
  | .store _ _ => .next σ th
  | .resume ret =>
      match th.stack with
      | [] => .never
      | f :: rest => resume c main σ { th with stack := rest } ret f

end Calls

/-! ### Mutexes -/

/-- The mutex a frame locks when it goes on. -/
def frameLocks (c : Config) (main : Bool) (mm : MmapManager) : Frame → Option Mutex
  | .pool r => some (.mtxsPerCore (r.lm c).core)
  | .allocate r => some (.mtxs (r.arena c main))
  | .printing _ .extended => some .debugMtx
  | .printing r .reported =>
      if mm.restSize (r.arena c main) < r.mmapSize c then some .debugMtx else none
  | .printing _ _ => none
  | .freeing _ _ => none
  | .release _ => some .mtx
  | .flush j i => if i ≠ (managerPools c j).core then some (.mtxsPerCore i) else none

/-- The mutex a step locks, if any. -/
def locks (c : Config) (main : Bool) (mm : MmapManager) (th : Thread) : Action → Option Mutex
  | .start _ => some .mtx
  | .exit => if th.lp.isSome then some .mtx else none
  | .free ptr => if ptr ≠ 0 ∧ th.lp.isNone then some .mtx else none
  | .resume _ =>
      match th.stack with
      | [] => none
      | f :: _ => frameLocks c main mm f
  | _ => none

/-! ### The machine -/

structure World where
  shared : State
  threads : Nat → Thread
  owner : Mutex → Option Nat

inductive Outcome
  | next (v : World)
  | wait
  | relock (m : Mutex)
  | nullManager

namespace World

/-- The state after `mainInit`. -/
def init (c : Config) (base : Nat → Nat) : World :=
  ⟨⟨fun _ => [], MmapManager.init c base, GlobalMemoryManager.init c, [], [], []⟩,
    fun _ => .blank, fun _ => none⟩

/-- The world after a step of thread `t` that left `σ` and `th`. -/
def commit (c : Config) (v : World) (t : Nat) (σ : State) (th : Thread) : World where
  shared := σ
  threads := Function.update v.threads t th
  owner m :=
    if m ∈ th.held c (mainThread t) then some t
    else if v.owner m = some t then none
    else v.owner m

/-- A step whose mutex, if it needs one, is free. -/
def go (c : Config) (v : World) (t : Nat) (a : Action) : Outcome :=
  match act c (mainThread t) v.shared (v.threads t) a with
  | .next σ th => .next (v.commit c t σ th)
  | .never => .wait
  | .nullManager => .nullManager

/-- An action of thread `t`. -/
def step (c : Config) (v : World) (t : Nat) (a : Action) : Outcome :=
  if !(v.threads t).ready a then .wait
  else
    match locks c (mainThread t) v.shared.mm (v.threads t) a with
    | none => v.go c t a
    | some m =>
        match v.owner m with
        | none => v.go c t a
        | some t' => if t' = t then .relock m else .wait

end World

/-! ### What the program and the system may do -/

/-- What an action of the program may be. -/
def ActOk (c : Config) (main : Bool) (σ : State) (th : Thread) : Action → Prop
  | .start core => core < c.coreN
  | .malloc size => size < 2 ^ 64
  | .realloc ptr size => size < 2 ^ 64 ∧ (ptr ≠ 0 → ptr ∈ σ.live)
  | .free ptr => ptr ≠ 0 → ptr ∈ σ.live
  | .store addr _ => ∀ b ∈ σ.carved, addr < b.addr ∨ b.addr + headerSize ≤ addr
  | .resume ret => ∀ r, .allocate r ∈ th.stack.head? →
      σ.mm.needsExtension c (r.arena c main) (r.mmapSize c) = true →
      c.Fresh σ.mm.maps ret (align (MmapManager.allocSize (r.mmapSize c)) c.pageSize)
  | .exit | .calloc _ _ | .allFree => True

/-- A step the program and the system may make. -/
structure Legal (c : Config) (v : World) (a : Nat × Action) : Prop where
  act : ActOk c (mainThread a.1) v.shared (v.threads a.1) a.2
  once : ∀ ptr, a.2.freed = some ptr → ∀ t, ∀ f ∈ (v.threads t).stack, f.pending ≠ some ptr

/-- The allocator without its memory as a transition system. -/
def system (c : Config) (base : Nat → Nat) : TransitionSystem World (Nat × Action) where
  start v := v = World.init c base
  step v a v' := v.step c a.1 a.2 = .next v'

end FCMalloc.QueueMachine
