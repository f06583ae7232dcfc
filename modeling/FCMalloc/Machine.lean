import FCMalloc.Allocator
import FCMalloc.Library.TransitionSystem

/-!
# FCMalloc.Machine

The allocator under any number of threads, one step for each section between two
mutex operations.

A thread is in some of the program's functions at once: `Thread.stack` lists what is left
to do in each, innermost first. A step runs the innermost function up to the next mutex
operation (`act`). It reads and writes the shared state and the thread's own; the lists
of the manager a thread has leased are touched by no other thread until it gives the
manager back.

The program locks with scoped objects, so the mutexes a thread holds between two steps
are those of its frames (`Frame.holds`). A mutex taken and released within one step
appears only as the step's condition (`locks`). Only `MmapManager::Malloc` holds
mutexes for longer: it prints a report after an extension, and `printf` may call
`malloc` at any point of it.

`live` and `returned` are history: what the program has been given and not yet given
back, and everything `malloc`, `calloc` and `realloc` ever returned.
-/

namespace FCMalloc.Machine

open ByteMemory GlobalMemoryManager LocalMemoryManager

/-- The mutexes of the program. -/
inductive Mutex
  | mtxs (arena : Nat)
  | debugMtx
  | mtxsPerCore (core : Nat)
  | mtx
  deriving DecidableEq, Repr

/-- The function of `fcmalloc.cpp` that a call of `Malloc` returns to. -/
inductive Caller
  | malloc
  | calloc
  | realloc (ptr preSize : Nat)
  deriving DecidableEq, Repr

/-- A call `managerPools_[manager].Malloc(size)`. -/
structure Request where
  manager : Nat
  size : Nat
  caller : Caller
  deriving DecidableEq, Repr

/-- Where `MmapManager::Malloc` is once it has extended an arena: before the first
`DebugPrintWithNoMalloc`, in it, behind it, and in the second one. -/
inductive Phase
  | extended
  | reporting
  | reported
  | exhausted
  deriving DecidableEq, Repr

/-- What is left to do in a function that has reached a mutex operation. -/
inductive Frame
  /-- `LocalMemoryManager::Malloc` before the section under `mtxsPerCore_[core_]`. -/
  | pool (r : Request)
  /-- The same before `malloc_->Allocate`. -/
  | allocate (r : Request)
  /-- The same inside `MmapManager::Malloc`, under `mtxs_[core]`. -/
  | printing (r : Request) (phase : Phase)
  /-- `GlobalMemoryManager::Free` with its manager leased. -/
  | freeing (manager ptr : Nat)
  /-- The same before `FreeLocalMemoryManager`. -/
  | release (manager : Nat)
  /-- `AllFreeToCommonMemoryPool` before the round for `core`. -/
  | flush (manager core : Nat)
  deriving DecidableEq, Repr

/-- The thread-local variables of a thread and what it is doing. The counters are of type
`int`. `granted` is history: a slot of the thread's core was idle when it started. -/
structure Thread where
  started : Bool
  granted : Bool
  exited : Bool
  lp : Option Nat
  cntsPerSize : SizeClass → Int
  stack : List Frame

/-- A pointer `malloc`, `calloc` or `realloc` returned for `size` bytes: `core` is that of
the manager that served it, `none` if `realloc` kept the block. -/
structure Returned where
  core : Option Nat
  size : Nat
  ptr : Nat
  deriving DecidableEq, Repr

structure Shared where
  heap : Process
  live : List Nat
  returned : List Returned

/-- One step of a thread. -/
inductive Action
  /-- `threadInit`, on the core `sched_getcpu` returns. -/
  | start (core : Nat)
  /-- `threadTerm`. -/
  | exit
  | malloc (size : Nat)
  | calloc (nmemb size : Nat)
  | realloc (ptr size : Nat)
  | free (ptr : Nat)
  /-- `AllFreeToCommonMemoryPool` on the thread's manager. -/
  | allFree
  /-- The program writes a byte. -/
  | store (addr : Nat) (v : UInt8)
  /-- Go on with the innermost function. If it calls `mmap`, that returns `ret`. -/
  | resume (ret : Nat)

/-- What becomes of a step: `never` is a step that does not return, `nullManager` one that
calls a member function of a null `LocalMemoryManager *`. -/
inductive Result
  | next (s : Shared) (th : Thread)
  | never
  | nullManager

namespace Thread

def blank : Thread := ⟨false, false, false, none, fun _ => 0, []⟩

def push (th : Thread) (f : Frame) : Thread := { th with stack := f :: th.stack }

/-- Whether the thread is in a `printf`. -/
def prints (th : Thread) : Bool :=
  match th.stack with
  | .printing _ phase :: _ => phase ≠ .reported
  | _ => false

/-- Whether the thread may take an action next. -/
def ready (th : Thread) : Action → Bool
  | .start _ => !th.started && th.stack = []
  | .malloc _ => th.started && (th.stack = [] || th.prints)
  | .resume _ => th.stack ≠ []
  | .exit => th.started && !th.exited && th.stack = []
  | .allFree => th.started && th.lp.isSome && th.stack = []
  | .calloc _ _ | .realloc _ _ | .free _ | .store _ _ => th.started && th.stack = []

end Thread

namespace Request

variable (c : Config) (main : Bool) (r : Request)

/-- The manager `Malloc` is called on. -/
def lm : LocalMemoryManager := managerPools c r.manager

/-- The number of blocks carved at once. -/
def n [ClzZero] : Nat := c.batch (sizeClass r.size)

/-- What is asked of the arena for them. -/
def mmapSize [ClzZero] : Nat := FCMalloc.mmapSize c r.size (r.n c)

/-- The arena it is asked of. -/
def arena : Nat := c.arena main (r.lm c).core

end Request

namespace Shared

variable (c : Config) (s : Shared)

def setStore (store : Store ListId) : Shared := { s with heap := { s.heap with store } }

def setMm (mm : MmapManager) : Shared := { s with heap := { s.heap with mm } }

/-- The shared state once `Malloc` has returned `ptr` and its caller has returned too. -/
def finish [ClzZero] (r : Request) (ptr : Nat) : Shared :=
  let s := { s with returned := ⟨some (r.lm c).core, r.size, ptr⟩ :: s.returned }
  if ptr = 0 then s
  else
    match r.caller with
    | .malloc => { s with live := ptr :: s.live }
    | .calloc =>
        { s with
          heap := s.heap.setMem (fill s.heap.store.mem ptr r.size 0)
          live := ptr :: s.live }
    | .realloc old preSize =>
        { s with
          heap := (r.lm c).moveBody s.heap ptr old preSize
          live := ptr :: s.live.erase old }

end Shared

/-! ### The functions up to their first mutex operation -/

section Calls

variable (c : Config) (main : Bool) (s : Shared) (th : Thread)

/-- `threadInit`. -/
def threadInit (core : Nat) : Result :=
  let r := allocLocalMemoryManager c s.heap.g core
  let granted := (List.range c.poolN).any fun i => !s.heap.g.poolFlags (c.poolN * core + i)
  .next { s with heap := { s.heap with g := r.2 } } { th with started := true, granted, lp := r.1 }

/-- `threadTerm`. -/
def threadTerm : Result :=
  match th.lp with
  | none => .next s { th with exited := true }
  | some j =>
      let r := freeLocalMemoryManager c s.heap.g s.heap.store j
      .next { s with heap := { s.heap with g := r.1, store := r.2 } }
        { th with exited := true, lp := none }

/-- `LocalMemoryManager::Malloc`. -/
def enterMalloc [ClzZero] (r : Request) : Result :=
  if r.size = 0 then .next (s.finish c r 0) th
  else
    let own := (r.lm c).mallocOwn s.heap.store r.size
    let s := s.setStore own.2
    if own.1 ≠ 0 then .next (s.finish c r own.1) th else .next s (th.push (.pool r))

/-- `malloc`, also as `calloc` and `realloc` call it. -/
def malloc [ClzZero] (size : Nat) (caller : Caller) : Result :=
  if size = 0 then .next s th
  else
    match th.lp with
    | none => .nullManager
    | some j => enterMalloc c s th ⟨j, size, caller⟩

/-- `calloc`. -/
def calloc [ClzZero] (nmemb size : Nat) : Result :=
  if nmemb = 0 ∨ size = 0 then .next s th
  else malloc c s th (u64 (nmemb * size)) .calloc

/-- `realloc`, with `LocalMemoryManager::Realloc`. -/
def realloc [ClzZero] (ptr size : Nat) : Result :=
  if ptr = 0 then malloc c s th size .malloc
  else
    match th.lp with
    | none => .nullManager
    | some j =>
        let preSize := MemUtil.ptrToSize s.heap.store.mem ptr
        if size ≤ preSize then .next { s with returned := ⟨none, size, ptr⟩ :: s.returned } th
        else enterMalloc c s th ⟨j, size, .realloc ptr preSize⟩

/-- `GlobalMemoryManager::Free` up to its lease. -/
def lateFree (ptr : Nat) : Result :=
  let r := allocLocalMemoryManager c s.heap.g (MemUtil.ptrToCore s.heap.store.mem ptr)
  match r.1 with
  | none => .nullManager
  | some j => .next { s with heap := { s.heap with g := r.2 } } (th.push (.freeing j ptr))

/-- The counting of `free`: main counts frees per class and flushes at the interval. -/
def countFree [ClzZero] (j ptr : Nat) : Thread :=
  let index := sizeClass (MemUtil.ptrToSize s.heap.store.mem ptr)
  let cnts := Function.update th.cntsPerSize index (i32 (th.cntsPerSize index + 1))
  if main ∧ cnts index > c.nPerSize index then
    { th with cntsPerSize := fun _ => 0 }.push (.flush j 0)
  else { th with cntsPerSize := cnts }

/-- `free`. -/
def free [ClzZero] (ptr : Nat) : Result :=
  if ptr = 0 then .next s th
  else
    match th.lp with
    | none => lateFree c s th ptr
    | some j =>
        let s := { s.setStore ((managerPools c j).free s.heap.store ptr) with
          live := s.live.erase ptr }
        .next s (countFree c main s th j ptr)

/-- `AllFreeToCommonMemoryPool`. -/
def allFree : Result :=
  match th.lp with
  | none => .nullManager
  | some j => .next s (th.push (.flush j 0))

/-! ### The functions from a mutex operation on -/

/-- `Malloc` once the arena has given it `p`: carve, append and try again. -/
def serve [ClzZero] (r : Request) (p : Nat) : Result :=
  match s.heap.carveInto c (r.lm c).mallocList (r.lm c).core r.size (r.n c) p with
  | none => .never
  | some heap =>
      let last := (r.lm c).mallocLast heap r.size
      .next ({ s with heap := last.2 }.finish c r last.1) th

/-- Go on with frame `f`, which has been taken off the stack. -/
def resume [ClzZero] (ret : Nat) : Frame → Result
  | .pool r =>
      let pooled := CommonMemoryPool.malloc c s.heap.store (r.lm c).mallocList (r.lm c).core r.size
      let s := s.setStore pooled.2
      if pooled.1 ≠ 0 then .next (s.finish c r pooled.1) th else .next s (th.push (.allocate r))
  | .allocate r =>
      match s.heap.mm.enter c main (r.lm c).core (r.mmapSize c) ret with
      | none => .never
      | some (served, mm, touched) =>
          let s := { s with heap := s.heap.touch mm touched }
          match served with
          | some p => serve c s th r p
          | none => .next s (th.push (.printing r .extended))
  | .printing r .extended => .next s (th.push (.printing r .reporting))
  | .printing r .reporting => .next s (th.push (.printing r .reported))
  | .printing r .reported =>
      let a := r.arena c main
      if s.heap.mm.restSize a < r.mmapSize c then .next s (th.push (.printing r .exhausted))
      else
        let served := s.heap.mm.serve a (r.mmapSize c)
        serve c (s.setMm served.2) th r served.1
  | .printing r .exhausted => serve c s th r 0
  | .freeing j ptr =>
      .next { s.setStore ((managerPools c j).free s.heap.store ptr) with live := s.live.erase ptr }
        (th.push (.release j))
  | .release j =>
      let r := freeLocalMemoryManager c s.heap.g s.heap.store j
      .next { s with heap := { s.heap with g := r.1, store := r.2 } } th
  | .flush j i =>
      let s := s.setStore ((managerPools c j).flushCore s.heap.store i)
      .next s (if i + 1 < (managerPools c j).coreN then th.push (.flush j (i + 1)) else th)

/-- What an action of a thread does. -/
def act [ClzZero] : Action → Result
  | .start core => threadInit c s th core
  | .exit => threadTerm c s th
  | .malloc size => malloc c s th size .malloc
  | .calloc nmemb size => calloc c s th nmemb size
  | .realloc ptr size => realloc c s th ptr size
  | .free ptr => free c main s th ptr
  | .allFree => allFree s th
  | .store addr v =>
      .next { s with heap := s.heap.setMem (Function.update s.heap.store.mem addr v) } th
  | .resume ret =>
      match th.stack with
      | [] => .never
      | f :: rest => resume c main s { th with stack := rest } ret f

end Calls

/-! ### Mutexes -/

namespace Frame

variable (c : Config) (main : Bool)

/-- The scoped locks alive in a frame. -/
def holds : Frame → List Mutex
  | .printing r .reporting | .printing r .exhausted => [.debugMtx, .mtxs (r.arena c main)]
  | .printing r _ => [.mtxs (r.arena c main)]
  | _ => []

/-- The mutex a frame locks when it goes on. The lock of `stdout` is not the allocator's and has no
place here: the `printf` of a report never waits for it. -/
def locks [ClzZero] (s : Shared) : Frame → Option Mutex
  | .pool r => some (.mtxsPerCore (r.lm c).core)
  | .allocate r => some (.mtxs (r.arena c main))
  | .printing _ .extended => some .debugMtx
  | .printing r .reported =>
      if s.heap.mm.restSize (r.arena c main) < r.mmapSize c then some .debugMtx else none
  | .printing _ _ => none
  | .freeing _ _ => none
  | .release _ => some .mtx
  | .flush j i => if i ≠ (managerPools c j).core then some (.mtxsPerCore i) else none

end Frame

/-- The mutexes a thread holds. -/
def Thread.held (c : Config) (main : Bool) (th : Thread) : List Mutex :=
  th.stack.flatMap (Frame.holds c main)

/-- The mutex a step locks, if any. -/
def locks [ClzZero] (c : Config) (main : Bool) (s : Shared) (th : Thread) : Action → Option Mutex
  | .start _ => some .mtx
  | .exit => if th.lp.isSome then some .mtx else none
  | .free ptr => if ptr ≠ 0 ∧ th.lp.isNone then some .mtx else none
  | .resume _ =>
      match th.stack with
      | [] => none
      | f :: _ => f.locks c main s
  | _ => none

/-! ### The machine -/

structure World where
  shared : Shared
  threads : Nat → Thread
  owner : Mutex → Option Nat

/-- What becomes of an action: `wait` is one that is not possible now, or never returns,
`relock` one that locks a mutex its thread already holds. -/
inductive Outcome
  | next (w : World)
  | wait
  | relock (m : Mutex)
  | nullManager

namespace Outcome

def relocked? : Outcome → Option Mutex
  | relock m => some m
  | _ => none

def isNullManager : Outcome → Bool
  | nullManager => true
  | _ => false

theorem eq_nullManager {o : Outcome} (h : o.isNullManager = true) : o = .nullManager := by
  cases o with
  | nullManager => rfl
  | next | wait | relock => exact absurd h (by simp [isNullManager])

theorem eq_relock {o : Outcome} {m : Mutex} (h : o.relocked? = some m) : o = .relock m := by
  cases o with
  | relock m' => exact congrArg relock (Option.some.inj h)
  | next | wait | nullManager => exact absurd h (by simp [relocked?])

end Outcome

/-- `mainThreadFlag`: thread 0 is the one that runs `mainInit`. -/
def mainThread (t : Nat) : Bool := t = 0

namespace World

/-- The state after `mainInit`. -/
def init (c : Config) (base : Nat → Nat) (mem : Memory) : World :=
  ⟨⟨Process.init c base mem, [], []⟩, fun _ => .blank, fun _ => none⟩

/-- The world after a step of thread `t` that left `s` and `th`. -/
def commit (c : Config) (w : World) (t : Nat) (s : Shared) (th : Thread) : World where
  shared := s
  threads := Function.update w.threads t th
  owner m :=
    if m ∈ th.held c (mainThread t) then some t
    else if w.owner m = some t then none
    else w.owner m

/-- A step whose mutex, if it needs one, is free. -/
def go [ClzZero] (c : Config) (w : World) (t : Nat) (a : Action) : Outcome :=
  match act c (mainThread t) w.shared (w.threads t) a with
  | .next s th => .next (w.commit c t s th)
  | .never => .wait
  | .nullManager => .nullManager

/-- An action of thread `t`. -/
def step [ClzZero] (c : Config) (w : World) (t : Nat) (a : Action) : Outcome :=
  if !(w.threads t).ready a then .wait
  else
    match locks c (mainThread t) w.shared (w.threads t) a with
    | none => w.go c t a
    | some m =>
        match w.owner m with
        | none => w.go c t a
        | some t' => if t' = t then .relock m else .wait

/-- The world after some actions, each made and passing a test. -/
def run [ClzZero] (c : Config) (p : World → Nat × Action → Bool) :
    World → List (Nat × Action) → Option World
  | w, [] => some w
  | w, a :: as =>
      if p w a then
        match w.step c a.1 a.2 with
        | .next w' => w'.run c p as
        | _ => none
      else none

end World

/-- The allocator as a transition system, from the state `mainInit` leaves when the `mmap`
of arena `i` returned `base i`. -/
def system [ClzZero] (c : Config) (base : Nat → Nat) : TransitionSystem World (Nat × Action) where
  start w := ∃ mem, w = World.init c base mem
  step w a w' := w.step c a.1 a.2 = .next w'

/-- Executing actions is one way to build a run. -/
theorem World.run_sound {c : Config} {base : Nat → Nat} (ok : World → Nat × Action → Prop)
    {p : World → Nat × Action → Bool} (hp : ∀ w a, p w a = true → ok w a)
    {as : List (Nat × Action)} {w w' : World} (h : (system c base).Run ok w)
    (hrun : w.run c p as = some w') : (system c base).Run ok w' := by
  induction as generalizing w with
  | nil =>
      obtain rfl := Option.some.inj hrun
      exact h
  | cons a as ih =>
      rw [run] at hrun
      split at hrun
      case isTrue hok =>
        split at hrun
        case h_1 w₁ hstep => exact ih (.step h (hp w a hok) hstep) hrun
        · exact absurd hrun (by simp)
      · exact absurd hrun (by simp)

/-- What is seen of some actions, made one after the other. -/
def World.trace {ε : Type} (c : Config) (see : World → Nat × Action → World → ε) :
    World → List (Nat × Action) → List ε
  | _, [] => []
  | w, a :: as =>
      match w.step c a.1 a.2 with
      | .next w' => see w a w' :: w'.trace c see as
      | _ => []

/-- Executing actions is one way to make a run with its trace. -/
theorem World.run_traced {ε : Type} {c : Config} (base : Nat → Nat)
    (ok : World → Nat × Action → Prop) (see : World → Nat × Action → World → ε)
    {p : World → Nat × Action → Bool} (hp : ∀ w a, p w a = true → ok w a)
    {as : List (Nat × Action)} {w w₁ w' : World} {es : List ε}
    (hpath : Traced ((system c base).Sees ok see) w es w₁) (hrun : w₁.run c p as = some w') :
    Traced ((system c base).Sees ok see) w (es ++ w₁.trace c see as) w' := by
  induction as generalizing w₁ es with
  | nil =>
      obtain rfl := Option.some.inj hrun
      simpa [trace] using hpath
  | cons a as ih =>
      rw [run] at hrun
      split at hrun
      case isTrue hok =>
        split at hrun
        case h_1 w₂ hstep =>
          have hpath' := ih (.snoc hpath ⟨a, hp _ _ hok, hstep, rfl⟩) hrun
          rw [trace, hstep]
          simpa using hpath'
        · exact absurd hrun (by simp)
      · exact absurd hrun (by simp)

/-- A trace that shows the actions shows those that were made. -/
theorem World.trace_actions {c : Config} {p : World → Nat × Action → Bool}
    {as : List (Nat × Action)} {w w' : World} (hrun : w.run c p as = some w') :
    w.trace c (fun _ a _ => a) as = as := by
  induction as generalizing w with
  | nil => rfl
  | cons a as ih =>
      rw [run] at hrun
      split at hrun
      case isTrue =>
        split at hrun
        case h_1 w₁ hstep =>
          rw [trace, hstep]
          exact congrArg (a :: ·) (ih hrun)
        · exact absurd hrun (by simp)
      · exact absurd hrun (by simp)

end FCMalloc.Machine
