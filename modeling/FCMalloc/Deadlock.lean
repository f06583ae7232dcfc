import FCMalloc.Locking

/-!
# FCMalloc.Deadlock

No thread locks a mutex twice, and the mutexes nest without a cycle, as long as the
`malloc` calls that `printf` makes are served without the arena.

`MmapManager::Malloc` reports every extension while it holds `mtxs_[core]`, with
`printf`, although the report is called `DebugPrintWithNoMalloc`. A `malloc` inside it
that finds its class empty goes to the same arena. `Refilled` is the condition on a step
that excludes this. It is exact: a nested `malloc` that does not meet it locks
`mtxs_[core]` again in its next step (`relock_of_not_refillable`).
-/

namespace FCMalloc.Machine

open GlobalMemoryManager

/-- The common pool of the manager's core has a block of the class and the table lets it
be taken. -/
def Refillable (c : Config) (s : Shared) (r : Request) : Prop :=
  0 < c.nPerSize (sizeClass r.size) ∧ ∃ N q, Sound N s.heap.store q ∧
    q (.poolsPerCore (r.lm c).core, sizeClass r.size) ≠ []

/-- A step that does not take a `malloc` inside a `printf` to an empty common pool. -/
def Refilled (c : Config) (w : World) (a : Nat × Action) : Prop :=
  ∀ ret, a.2 = .resume ret → ∀ r f, (w.threads a.1).stack = [.pool r, f] →
    Refillable c w.shared r

/-- No `malloc` inside a `printf` has got as far as the arena. -/
def NoNestedAllocate (w : World) : Prop :=
  ∀ t r f, (w.threads t).stack ≠ [.allocate r, f]

/-- A thread that holds `m` is about to lock `m'`. -/
def Nests (c : Config) (w : World) (m m' : Mutex) : Prop :=
  ∃ t a, (w.threads t).ready a = true ∧ w.owner m = some t ∧
    locks c (mainThread t) w.shared (w.threads t) a = some m'

/-- The nesting of mutexes over all runs. -/
def NestedIn (c : Config) (base : Nat → Nat) (ok : World → Nat × Action → Prop) (m m' : Mutex) :
    Prop :=
  ∃ w, (system c base).Run ok w ∧ Nests c w m m'

/-- The order of nesting: the arena's mutex, that of the report, that of a pool. -/
def Mutex.rank : Mutex → Nat
  | .mtxs _ => 0
  | .debugMtx => 1
  | .mtxsPerCore _ => 2
  | .mtx => 3

section Nesting

variable {c : Config} {base : Nat → Nat} {w w' : World} {t : Nat} {a : Action} {m m' : Mutex}
  {main : Bool} {th : Thread} {r r' : Request} {phase : Phase} {s : Shared} {ret : Nat}
  {N : Set Nat} {q : QueueId → List Nat}

/-- **The refill** comes back empty-handed exactly if the pool has nothing to give. -/
theorem pooled_eq_zero_iff (hs : Sound N s.heap.store q) (hsize : r.size ≠ 0) :
    (CommonMemoryPool.malloc c s.heap.store (r.lm c).mallocList (r.lm c).core r.size).1 = 0 ↔
      q ((r.lm c).mallocList, sizeClass r.size) = [] ∧ ¬ Refillable c s r := by
  have hne : (r.lm c).mallocList ≠ .poolsPerCore (r.lm c).core := mallocList_ne_pool
  have hkeys : ((r.lm c).mallocList, sizeClass r.size) ≠
      (.poolsPerCore (r.lm c).core, sizeClass r.size) := fun heq => hne (congrArg Prod.fst heq)
  have hrefillable : Refillable c s r ↔ 0 < c.nPerSize (sizeClass r.size) ∧
      q (.poolsPerCore (r.lm c).core, sizeClass r.size) ≠ [] := by
    refine and_congr_right fun _ => ⟨?_, fun hq => ⟨N, q, hs, hq⟩⟩
    rintro ⟨N', q', hs', hq'⟩
    rwa [hs.linked.unique hs'.linked]
  have hptr := (CommonMemoryPool.malloc_moved (c := c) hs hne hsize).1
  rw [hptr, frontBody_eq_zero, CommonMemoryPool.poolQueues, moveFront,
    Function.update_of_ne hkeys, Function.update_self, List.append_eq_nil_iff,
    List.take_eq_nil_iff, hrefillable]
  refine and_congr_right fun _ => ?_
  have hcount : (c.nPerSize (sizeClass r.size)).toNat = 0 ↔ ¬ 0 < c.nPerSize (sizeClass r.size) := by
    omega
  rw [hcount, not_and_or, not_not]

/-- A step that meets the condition takes no nested `malloc` to the arena. -/
theorem NoNestedAllocate.step (h : NoNestedAllocate w) (hinv : LockInv c w)
    (hok : Refilled c w (t, a)) (hstep : w.step c t a = .next w') : NoNestedAllocate w' := by
  obtain ⟨-, -, s, th, hact, rfl⟩ := World.step_next hstep
  intro t' r f
  rw [World.commit_threads]
  by_cases ht : t' = t
  case neg =>
    rw [Function.update_of_ne ht]
    exact h t' r f
  subst ht
  rw [Function.update_self]
  obtain ⟨hstack, -⟩ | ⟨g, hstack, -, hstarts⟩ | ⟨ret, g, rest, rfl, hold, -, hnew⟩ := act_stack hact
  · rw [hstack]
    exact h t' r f
  · rw [hstack]
    intro heq
    obtain ⟨rfl, -⟩ := List.cons.inj heq
    cases hstarts
  · intro hnow
    have hshape := hinv.shape t'
    rw [hold] at hshape
    rcases hnew with hstack | ⟨g', hstack, hfollows⟩
    · rw [← hstack, hnow] at hshape
      cases g <;> exact absurd hshape (by simp [Shape])
    · rw [hnow] at hstack
      obtain ⟨rfl, rfl⟩ := List.cons.inj hstack
      cases hfollows
      -- the refill of a class that has blocks does not fail
      simp only [act, hold] at hact
      rcases resume_pool hact with ⟨-, -, rfl⟩ | ⟨hpooled, -⟩
      · exact absurd hnow (by simp)
      · have hr := hok ret rfl r f hold
        have hsize := (hinv.requests t' (.pool r) (by simp [hold]) r rfl).2
        obtain ⟨hpos, N, q, hs, hq⟩ := hr
        exact ((pooled_eq_zero_iff hs hsize).mp hpooled).2 ⟨hpos, N, q, hs, hq⟩

theorem rank_holds {f : Frame} (h : m ∈ f.holds c main) : m.rank ≤ 1 := by
  cases f with
  | printing r phase =>
      cases phase <;> simp only [Frame.holds, List.mem_cons, List.not_mem_nil, or_false] at h
      case extended | reported =>
        rw [h]
        exact Nat.zero_le 1
      case reporting | exhausted =>
        rcases h with rfl | rfl
        · exact Nat.le_refl 1
        · exact Nat.zero_le 1
  | pool | allocate | freeing | release | flush => exact absurd h List.not_mem_nil

theorem rank_held (h : m ∈ th.held c main) : m.rank ≤ 1 := by
  obtain ⟨f, -, hf⟩ := List.mem_flatMap.mp h
  exact rank_holds hf

/-- **Nesting goes up in rank.** -/
theorem rank_lt_of_nests (hinv : LockInv c w) (hno : NoNestedAllocate w) (h : Nests c w m m') :
    m.rank < m'.rank := by
  obtain ⟨t, a, hready, howner, hlocks⟩ := h
  have hheld := (hinv.owners m t).mp howner
  have hshape := hinv.shape t
  have hidle : (w.threads t).stack ≠ [] := fun hnil => by
    rw [Thread.held, hnil] at hheld
    exact absurd hheld List.not_mem_nil
  cases a with
  | start core | exit | free ptr =>
      simp only [Thread.ready, Bool.and_eq_true, decide_eq_true_eq] at hready
      exact absurd hready.2 hidle
  | malloc | calloc | realloc | allFree | store => exact absurd hlocks (by simp [locks])
  | resume ret =>
      rw [locks] at hlocks
      split at hlocks
      · exact absurd hlocks (by simp)
      case h_2 f rest hstack =>
        have hrank := rank_held hheld
        rw [hstack] at hshape
        rw [Thread.held, hstack] at hheld
        cases f with
        | pool r =>
            -- the pool's mutex is of the highest rank
            obtain rfl := Option.some.inj hlocks
            exact Nat.lt_succ_of_le hrank
        | allocate r =>
            -- holding a mutex, the thread is nested, which `NoNestedAllocate` excludes here
            cases rest with
            | nil => exact absurd hheld List.not_mem_nil
            | cons g rest =>
                cases rest with
                | nil => exact absurd hstack (hno t r g)
                | cons g' rest => exact absurd hshape (by simp [Shape])
        | printing r phase =>
            cases rest with
            | cons g rest => cases rest <;> exact absurd hshape (by simp [Shape])
            | nil =>
                cases phase with
                | extended =>
                    obtain rfl := Option.some.inj hlocks
                    obtain rfl := List.mem_singleton.mp hheld
                    exact Nat.zero_lt_one
                | reported =>
                    obtain ⟨-, heq⟩ := Option.ite_none_right_eq_some.mp hlocks
                    obtain rfl := Option.some.inj heq
                    obtain rfl := List.mem_singleton.mp hheld
                    exact Nat.zero_lt_one
                | reporting | exhausted => exact absurd hlocks (by simp [Frame.locks])
        | freeing j ptr => exact absurd hlocks (by simp [Frame.locks])
        | release j | flush j i =>
            cases rest with
            | nil => exact absurd hheld List.not_mem_nil
            | cons g rest => cases rest <;> exact absurd hshape (by simp [Shape])

/-- Along a run that meets the condition no nested `malloc` is at the arena. -/
theorem NoNestedAllocate.run (h : (system c base).Run (Refilled c) w) : NoNestedAllocate w := by
  have hboth : LockInv c w ∧ NoNestedAllocate w := by
    refine h.invariant (motive := fun w => LockInv c w ∧ NoNestedAllocate w) ?_ ?_
    · rintro _ ⟨mem, rfl⟩
      exact ⟨LockInv.start mem, fun _ _ _ heq => absurd heq (by simp [World.init, Thread.blank])⟩
    · intro w a w' hinv hok hstep
      exact ⟨hinv.1.step hstep, hinv.2.step hinv.1 hok hstep⟩
  exact hboth.2

theorem NestedIn.rank_lt (h : NestedIn c base (Refilled c) m m') : m.rank < m'.rank := by
  obtain ⟨w, hrun, hnests⟩ := h
  exact rank_lt_of_nests (LockInv.run hrun) (.run hrun) hnests

/-- **No self-deadlock**: in every run whose steps all meet the condition, no step locks a
mutex that its thread already holds, and the nesting of the mutexes has no cycle. -/
theorem no_self_deadlock (c : Config) (base : Nat → Nat) (w : World)
    (h : (system c base).Run (Refilled c) w) :
    (∀ t a m, w.step c t a ≠ .relock m) ∧
      ∀ m, ¬ Relation.TransGen (NestedIn c base (Refilled c)) m m := by
  constructor
  · intro t a m hstep
    obtain ⟨hready, hlocks, howner⟩ := World.step_relock hstep
    have hlt := rank_lt_of_nests (LockInv.run h) (.run h) ⟨t, a, hready, howner, hlocks⟩
    exact Nat.lt_irrefl _ hlt
  · have hup : ∀ {m m'}, Relation.TransGen (NestedIn c base (Refilled c)) m m' →
        m.rank < m'.rank := by
      intro m m' hpath
      induction hpath with
      | single hnested => exact hnested.rank_lt
      | tail _ hnested ih => exact Nat.lt_trans ih hnested.rank_lt
    exact fun m hcycle => Nat.lt_irrefl _ (hup hcycle)

/-- A thread that is in at most one call meets the condition. -/
theorem Refilled.of_length {a : Nat × Action} (h : (w.threads a.1).stack.length ≤ 1) :
    Refilled c w a := by
  intro ret _ r f hstack
  rw [hstack] at h
  exact absurd h (by simp)

/-- With the default settings thread 1 asks core 0 for a class whose batch, 160 MB, does
not fit the arena. -/
def extendRun : List (Nat × Action) :=
  [(1, .start 0), (1, .malloc 16384), (1, .resume 0), (1, .resume 0x600000000000)]

theorem extendRun_made : ((World.init MmapManager.oneCore MmapManager.oneCoreBase fun _ => 0).run
    MmapManager.oneCore (fun w a => (w.threads a.1).stack.length ≤ 1) extendRun).isSome = true := by
  decide +kernel

/-- While thread 1 reports its extension, under `mtxs_[0]`, no step locks twice. -/
theorem no_self_deadlock_extendRun : ∃ w : World, w.owner (.mtxs 0) = some 1 ∧
    ∀ t a m, w.step MmapManager.oneCore t a ≠ .relock m := by
  have hrun := World.run_sound (Refilled MmapManager.oneCore)
    (fun w a h => .of_length (by simpa using h)) (.start ⟨_, rfl⟩) (Option.some_get extendRun_made).symm
  exact ⟨_, by decide +kernel, (no_self_deadlock _ MmapManager.oneCoreBase _ hrun).1⟩

/-- If `printf` then asks for a kilobyte, thread 1 goes to the arena again. -/
def printfRun : List (Nat × Action) := extendRun ++ [(1, .malloc 1024), (1, .resume 0)]

theorem printfRun_made : ((World.init MmapManager.oneCore MmapManager.oneCoreBase fun _ => 0).run
    MmapManager.oneCore (fun _ _ => true) printfRun).isSome = true := by decide +kernel

/-- The `malloc` of that `printf` locks `mtxs_[0]`, which its thread holds. -/
theorem printf_relocks : ∃ w : World, (system MmapManager.oneCore MmapManager.oneCoreBase).Run
      (fun _ _ => True) w ∧ w.owner (.mtxs 0) = some 1 ∧
    w.step MmapManager.oneCore 1 (.resume 0) = .relock (.mtxs 0) := by
  have hrun := World.run_sound (fun _ _ => True) (fun _ _ _ => trivial)
    (.start ⟨_, rfl⟩) (Option.some_get printfRun_made).symm
  exact ⟨_, hrun, by decide +kernel, Outcome.eq_relock (by decide +kernel)⟩

/-- **The condition is exact**: a `malloc` inside a `printf` that the pool cannot serve
locks the arena's mutex again as soon as it goes on. -/
theorem relock_of_not_refillable (hinv : LockInv c w) (hs : Sound N w.shared.heap.store q)
    (hstack : (w.threads t).stack = [.pool r, .printing r' phase])
    (hown : q ((r.lm c).mallocList, sizeClass r.size) = []) (hempty : ¬ Refillable c w.shared r)
    (hstep : w.step c t (.resume ret) = .next w') (ret' : Nat) :
    w'.step c t (.resume ret') = .relock (.mtxs (r.arena c (mainThread t))) := by
  have hinv' := hinv.step hstep
  obtain ⟨-, -, s, th, hact, rfl⟩ := World.step_next hstep
  have hsize := (hinv.requests t (.pool r) (by simp [hstack]) r rfl).2
  have hpooled := (pooled_eq_zero_iff hs hsize).mpr ⟨hown, hempty⟩
  simp only [act, hstack] at hact
  rcases resume_pool hact with ⟨hne, -⟩ | ⟨-, -, hth⟩
  · exact absurd hpooled hne
  have hstack' : ((w.commit c t s th).threads t).stack = [.allocate r, .printing r' phase] := by
    rw [World.commit_threads, Function.update_self, hth]
    rfl
  have htaken := hinv'.arena_taken hstack'
  have hready : ((w.commit c t s th).threads t).ready (.resume ret') = true := by
    simp [Thread.ready, hstack']
  have hlocks : locks c (mainThread t) (w.commit c t s th).shared
      ((w.commit c t s th).threads t) (.resume ret') =
        some (.mtxs (r.arena c (mainThread t))) := by
    simp only [locks, hstack', Frame.locks]
  simp only [World.step, hready, Bool.not_true, Bool.false_eq_true, if_false, hlocks, htaken,
    if_true]

end Nesting

end FCMalloc.Machine
