import FCMalloc.Locking

/-!
# FCMalloc.NullManager

When `Malloc`, `Realloc` or `Free` is called on a null `LocalMemoryManager *`.

The pointer is checked by assertions only. `LeaseInv` says when a thread's `lp` is set:
a slot of its core was idle when it started, and it has not exited. With this and the
search of `AllocLocalMemoryManager`, `HasManager` is the exact condition for a call, in
every state of every run (`nullManager_iff`).
-/

namespace FCMalloc.Machine

open GlobalMemoryManager

/-- A slot of the core is not leased. -/
def IdleSlot (c : Config) (g : GlobalMemoryManager) (core : Nat) : Prop :=
  ∃ i < c.poolN, g.poolFlags (c.poolN * core + i) = false

/-- The thread found an idle slot on its core when it started and has not exited. -/
def Thread.Leases (th : Thread) : Prop := th.granted = true ∧ th.exited = false

/-- The calls that need a manager, and when they have one: that of the thread or, for a
`free` by a thread without, an idle one of the core in the block's header. -/
def HasManager (c : Config) (w : World) (t : Nat) : Action → Prop
  | .malloc size => size ≠ 0 → (w.threads t).Leases
  | .calloc nmemb size => u64 (nmemb * size) ≠ 0 → (w.threads t).Leases
  | .realloc ptr size => ptr ≠ 0 ∨ size ≠ 0 → (w.threads t).Leases
  | .free ptr => ptr ≠ 0 → (w.threads t).Leases ∨
      IdleSlot c w.shared.heap.g (MemUtil.ptrToCore w.shared.heap.store.mem ptr)
  | _ => True

/-- Leases as the threads know them. -/
structure LeaseInv (w : World) : Prop where
  offset : -1 ≤ w.shared.heap.g.allocOffset
  lp : ∀ t, (w.threads t).lp.isSome = true ↔ (w.threads t).Leases
  fresh : ∀ t, (w.threads t).started = false → (w.threads t).exited = false

section Invariant

variable {c : Config} {base : Nat → Nat} {w w' : World} {t : Nat} {a : Action}
  {g : GlobalMemoryManager} {core : Nat}

/-- **The search for a slot** succeeds if and only if there is an idle one. -/
theorem alloc_isSome_iff (hoff : -1 ≤ g.allocOffset) :
    (allocLocalMemoryManager c g core).1.isSome = true ↔ IdleSlot c g core := by
  obtain ⟨i, hi, hidle, heq⟩ | ⟨hbusy, heq⟩ :=
    allocLocalMemoryManager_spec (c := c) hoff core
  · rw [heq]
    exact ⟨fun _ => ⟨i, hi, hidle⟩, fun _ => rfl⟩
  · rw [heq]
    refine ⟨fun hsome => absurd hsome (by simp), fun ⟨i, hi, hidle⟩ => ?_⟩
    exact Bool.noConfusion ((hbusy i hi).symm.trans hidle)

theorem LeaseInv.start (mem : ByteMemory.Memory) : LeaseInv (World.init c base mem) where
  offset := Int.le_refl _
  lp t := by simp [World.init, Thread.blank, Thread.Leases]
  fresh _ _ := rfl

/-- **Every step** keeps `lp` in agreement with the thread's history. -/
theorem LeaseInv.step (h : LeaseInv w) (hstep : w.step c t a = .next w') : LeaseInv w' := by
  obtain ⟨hready, -, s, th, hact, rfl⟩ := World.step_next hstep
  have hself : (th.lp.isSome = true ↔ th.Leases) ∧ (th.started = false → th.exited = false) := by
    have hkeeps : (w.threads t).KeepsLease th →
        (th.lp.isSome = true ↔ th.Leases) ∧ (th.started = false → th.exited = false) := by
      intro hk
      rw [hk.lp, hk.started, hk.exited, Thread.Leases, hk.granted, hk.exited]
      exact ⟨h.lp t, h.fresh t⟩
    obtain hk | ⟨⟨core, rfl⟩ | rfl, -⟩ := act_lease_cases hready hact
    · exact hkeeps hk
    · obtain ⟨-, rfl⟩ := Result.next.inj hact
      simp only [Thread.ready, Bool.and_eq_true, Bool.not_eq_true'] at hready
      refine ⟨?_, fun hstarted => absurd hstarted (by simp)⟩
      rw [alloc_isSome_iff h.offset]
      simp [Thread.Leases, IdleSlot, h.fresh t hready.1]
    · rw [act, threadTerm] at hact
      simp only [Thread.ready, Bool.and_eq_true] at hready
      have hstarted := hready.1.1
      split at hact
      case h_1 hlp =>
        obtain ⟨-, rfl⟩ := Result.next.inj hact
        simp [Thread.Leases, hlp, hstarted]
      case h_2 =>
        obtain ⟨-, rfl⟩ := Result.next.inj hact
        simp [Thread.Leases, hstarted]
  constructor
  case offset => exact act_allocOffset h.offset hact
  case lp =>
    exact World.forall_commit (P := fun _ th => th.lp.isSome = true ↔ th.Leases) h.lp hself.1
  case fresh =>
    exact World.forall_commit (P := fun _ th => th.started = false → th.exited = false) h.fresh
      hself.2

theorem LeaseInv.run {ok : World → Nat × Action → Prop} (h : (system c base).Run ok w) :
    LeaseInv w := by
  refine h.invariant ?_ fun _ _ _ hinv _ hstep => hinv.step hstep
  rintro _ ⟨mem, rfl⟩
  exact LeaseInv.start mem

theorem enterMalloc_ne_nullManager {s : Shared} {th : Thread} {r : Request} :
    enterMalloc c s th r ≠ .nullManager := by
  unfold enterMalloc
  split
  · exact Result.noConfusion
  · dsimp only
    split <;> exact Result.noConfusion

/-- `malloc` meets a null manager if it needs one and the thread has none. -/
theorem malloc_nullManager_iff {s : Shared} {th : Thread} {size : Nat} {caller : Caller} :
    malloc c s th size caller = .nullManager ↔ size ≠ 0 ∧ th.lp.isSome ≠ true := by
  unfold malloc
  split
  case isTrue hzero => simp [hzero]
  case isFalse hsize =>
    split
    case h_1 hlp => simp [hsize, hlp]
    case h_2 j hlp => simp [hsize, hlp, enterMalloc_ne_nullManager]

theorem free_nullManager_iff {main : Bool} {s : Shared} {th : Thread} {ptr : Nat}
    (hoff : -1 ≤ s.heap.g.allocOffset) :
    free c main s th ptr = .nullManager ↔ ptr ≠ 0 ∧ th.lp.isSome ≠ true ∧
      ¬ IdleSlot c s.heap.g (MemUtil.ptrToCore s.heap.store.mem ptr) := by
  unfold free
  split
  case isTrue hnull => simp [hnull]
  case isFalse hptr =>
    split
    case h_2 j hlp => simp [hlp]
    case h_1 hlp =>
      rw [← alloc_isSome_iff hoff, lateFree]
      dsimp only
      split
      case h_1 hnone => simp [hptr, hlp, hnone]
      case h_2 j hj => simp [hj]

/-- A thread that goes on with a function has its manager already. -/
theorem resume_ne_nullManager {main : Bool} {s : Shared} {th : Thread} {ret : Nat} {f : Frame} :
    resume c main s th ret f ≠ .nullManager := by
  have hserve : ∀ s r p, serve c s th r p ≠ .nullManager := by
    intro s r p
    unfold serve
    split <;> simp
  cases f with
  | pool r =>
      unfold resume
      dsimp only
      split <;> simp
  | allocate r =>
      unfold resume
      dsimp only
      split
      · simp
      · split
        · exact hserve _ _ _
        · simp
  | printing r phase =>
      cases phase with
      | extended | reporting => exact Result.noConfusion
      | reported =>
          unfold resume
          dsimp only
          split
          · simp
          · exact hserve _ _ _
      | exhausted => exact hserve _ _ _
  | freeing j ptr | release j | flush j i => exact Result.noConfusion

/-- A call on a null manager, before its locks. -/
theorem act_nullManager_iff (h : LeaseInv w) (hready : (w.threads t).ready a = true) :
    act c (mainThread t) w.shared (w.threads t) a = .nullManager ↔ ¬ HasManager c w t a := by
  have hlp := h.lp t
  cases a with
  | start core => simp [act, threadInit, HasManager]
  | exit =>
      rw [act, threadTerm]
      split <;> simp [HasManager]
  | malloc size =>
      rw [act, malloc_nullManager_iff, HasManager, Classical.not_imp, Ne, Ne, hlp]
  | calloc nmemb size =>
      rw [act, calloc, HasManager]
      split
      case isTrue hzero =>
        have hprod : nmemb * size = 0 := Nat.mul_eq_zero.mpr hzero
        simp [hprod, u64]
      case isFalse => rw [malloc_nullManager_iff, Classical.not_imp, Ne, Ne, hlp]
  | realloc ptr size =>
      rw [act, realloc, HasManager]
      split
      case isTrue hnull =>
        rw [malloc_nullManager_iff, Classical.not_imp, Ne, Ne, hlp]
        simp [hnull]
      case isFalse hptr =>
        rw [Classical.not_imp, ← hlp]
        split
        case h_1 hnone => simp [hptr, hnone]
        case h_2 j hsome =>
          dsimp only
          split
          · simp [hsome]
          · simp [hsome, enterMalloc_ne_nullManager]
  | free ptr =>
      rw [act, free_nullManager_iff h.offset, HasManager, Classical.not_imp, not_or, Ne, Ne, hlp]
  | allFree =>
      -- only called by a thread that has a manager
      simp only [Thread.ready, Bool.and_eq_true] at hready
      simp only [act, allFree, HasManager, not_true_eq_false, iff_false]
      split
      case h_1 hnone =>
        rw [hnone] at hready
        exact absurd hready.1.2 (by simp)
      case h_2 => exact Result.noConfusion
  | store addr v => simp [act, HasManager]
  | resume ret =>
      simp only [act, HasManager, not_true_eq_false, iff_false]
      split
      · exact Result.noConfusion
      · exact resume_ne_nullManager

/-- **A missing manager**: in every state of every run, an action that a thread may take
calls a member function of a null manager if and only if `HasManager` fails. -/
theorem nullManager_iff (c : Config) (base : Nat → Nat) (w : World)
    (h : (system c base).Run (fun _ _ => True) w) (t : Nat) (a : Action)
    (hready : (w.threads t).ready a = true) :
    w.step c t a = .nullManager ↔ ¬ HasManager c w t a := by
  have hlocks := LockInv.run h
  have hact := act_nullManager_iff (c := c) (LeaseInv.run h) hready
  constructor
  · intro hstep
    exact hact.mp (World.step_nullManager hstep).2
  · intro hmissing
    have hnull := hact.mpr hmissing
    -- such a call locks `mtx_` or nothing, and nobody holds `mtx_`
    have hmutex : ∀ m, locks c (mainThread t) w.shared (w.threads t) a = some m → m = .mtx := by
      intro m hm
      cases a with
      | start core => exact (Option.some.inj hm).symm
      | exit | free ptr =>
          obtain ⟨-, heq⟩ := Option.ite_none_right_eq_some.mp hm
          exact (Option.some.inj heq).symm
      | resume ret =>
          refine absurd hnull ?_
          rw [act]
          split
          · simp
          · exact resume_ne_nullManager
      | malloc | calloc | realloc | allFree | store => exact absurd hm (by simp [locks])
    have hgo : w.go c t a = .nullManager := by rw [World.go, hnull]
    rw [World.step, hready]
    simp only [Bool.not_true, Bool.false_eq_true, if_false]
    split
    · exact hgo
    case h_2 m hm =>
      rw [hmutex m hm, hlocks.mtx_free]
      exact hgo

end Invariant

/-- With the default settings, four pool slots, threads 0 to `n - 1` start on one core. -/
def startRun (n : Nat) : List (Nat × Action) := (List.range n).map fun t => (t, .start 0)

theorem startRun_made (n : Nat) (hn : n = 1 ∨ n = 5) :
    ((World.init MmapManager.oneCore MmapManager.oneCoreBase fun _ => 0).run
      MmapManager.oneCore (fun _ _ => true) (startRun n)).isSome = true := by
  rcases hn with rfl | rfl <;> decide +kernel

/-- The first thread has a manager. -/
theorem nullManager_iff_startRun : ∃ w : World, (w.threads 0).ready (.malloc 1) = true ∧
    w.step MmapManager.oneCore 0 (.malloc 1) ≠ .nullManager := by
  have hrun := World.run_sound (fun _ _ => True) (fun _ _ _ => trivial)
    (.start ⟨_, rfl⟩) (Option.some_get (startRun_made 1 (Or.inl rfl))).symm
  have hiff := nullManager_iff _ MmapManager.oneCoreBase _ hrun 0 (.malloc 1) (by decide +kernel)
  refine ⟨_, by decide +kernel, fun hnull => hiff.mp hnull fun _ => ⟨?_, ?_⟩⟩
  · decide +kernel
  · decide +kernel

/-- The fifth thread on one core gets none, and its first `malloc` is a call on null. -/
theorem fifth_thread_malloc : ∃ w : World,
    (system MmapManager.oneCore MmapManager.oneCoreBase).Run (fun _ _ => True) w ∧
      w.step MmapManager.oneCore 4 (.malloc 1) = .nullManager := by
  have hrun := World.run_sound (fun _ _ => True) (fun _ _ _ => trivial)
    (.start ⟨_, rfl⟩) (Option.some_get (startRun_made 5 (Or.inr rfl))).symm
  exact ⟨_, hrun, Outcome.eq_nullManager (by decide +kernel)⟩

end FCMalloc.Machine
