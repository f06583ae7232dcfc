import FCMalloc.Machine

/-!
# FCMalloc.MachineSteps

What one step can do, once for every function of `FCMalloc.Machine`.

Each `_next` lemma inverts one function: from a step that was made it gives the branch
taken and the state left behind. `act_stack` is the view of all of them that locking
needs: how the stack of the thread changes. `World.step_next` and `World.step_relock` do
the same for the machine.
-/

namespace FCMalloc.Machine

open GlobalMemoryManager LocalMemoryManager

section Functions

variable [ClzZero] {c : Config} {main : Bool} {s s' : Shared} {th th' : Thread} {r : Request}
  {size nmemb ptr p ret : Nat} {caller : Caller}

/-- `Malloc` up to its first lock: done, or stopped before the common pool. -/
theorem enterMalloc_next (h : enterMalloc c s th r = .next s' th') :
    (r.size = 0 ∧ s' = s.finish c r 0 ∧ th' = th) ∨
    (r.size ≠ 0 ∧ ((r.lm c).mallocOwn s.heap.store r.size).1 ≠ 0 ∧ th' = th ∧
      s' = (s.setStore ((r.lm c).mallocOwn s.heap.store r.size).2).finish c r
        ((r.lm c).mallocOwn s.heap.store r.size).1) ∨
    (r.size ≠ 0 ∧ ((r.lm c).mallocOwn s.heap.store r.size).1 = 0 ∧ th' = th.push (.pool r) ∧
      s' = s.setStore ((r.lm c).mallocOwn s.heap.store r.size).2) := by
  unfold enterMalloc at h
  split at h
  case isTrue hzero =>
    obtain ⟨rfl, rfl⟩ := Result.next.inj h
    exact Or.inl ⟨hzero, rfl, rfl⟩
  case isFalse hsize =>
    dsimp only at h
    split at h
    case isTrue hown =>
      obtain ⟨rfl, rfl⟩ := Result.next.inj h
      exact Or.inr (Or.inl ⟨hsize, hown, rfl, rfl⟩)
    case isFalse hown =>
      obtain ⟨rfl, rfl⟩ := Result.next.inj h
      exact Or.inr (Or.inr ⟨hsize, not_not.mp hown, rfl, rfl⟩)

theorem malloc_next (h : malloc c s th size caller = .next s' th') :
    (size = 0 ∧ s' = s ∧ th' = th) ∨
    ∃ j, size ≠ 0 ∧ th.lp = some j ∧ enterMalloc c s th ⟨j, size, caller⟩ = .next s' th' := by
  unfold malloc at h
  split at h
  case isTrue hzero =>
    obtain ⟨rfl, rfl⟩ := Result.next.inj h
    exact Or.inl ⟨hzero, rfl, rfl⟩
  case isFalse hsize =>
    split at h
    · exact absurd h (by simp)
    case h_2 j hlp => exact Or.inr ⟨j, hsize, hlp, h⟩

theorem calloc_next (h : calloc c s th nmemb size = .next s' th') :
    (s' = s ∧ th' = th) ∨ ∃ j, u64 (nmemb * size) ≠ 0 ∧ th.lp = some j ∧
      enterMalloc c s th ⟨j, u64 (nmemb * size), .calloc⟩ = .next s' th' := by
  unfold calloc at h
  split at h
  · obtain ⟨rfl, rfl⟩ := Result.next.inj h
    exact Or.inl ⟨rfl, rfl⟩
  · rcases malloc_next h with ⟨-, hs, hth⟩ | hnext
    · exact Or.inl ⟨hs, hth⟩
    · exact Or.inr hnext

/-- `realloc`: a fresh block, the same block, or a larger one. -/
theorem realloc_next (h : realloc c s th ptr size = .next s' th') :
    (ptr = 0 ∧ malloc c s th size .malloc = .next s' th') ∨
    (ptr ≠ 0 ∧ size ≤ MemUtil.ptrToSize s.heap.store.mem ptr ∧ th' = th ∧
      s' = { s with returned := ⟨none, size, ptr⟩ :: s.returned }) ∨
    ∃ j, ptr ≠ 0 ∧ MemUtil.ptrToSize s.heap.store.mem ptr < size ∧ th.lp = some j ∧
      enterMalloc c s th ⟨j, size, .realloc ptr (MemUtil.ptrToSize s.heap.store.mem ptr)⟩ =
        .next s' th' := by
  unfold realloc at h
  split at h
  case isTrue hnull => exact Or.inl ⟨hnull, h⟩
  case isFalse hptr =>
    split at h
    · exact absurd h (by simp)
    case h_2 j hlp =>
      dsimp only at h
      split at h
      case isTrue hle =>
        obtain ⟨rfl, rfl⟩ := Result.next.inj h
        exact Or.inr (Or.inl ⟨hptr, hle, rfl, rfl⟩)
      case isFalse hlt => exact Or.inr (Or.inr ⟨j, hptr, Nat.lt_of_not_le hlt, hlp, h⟩)

omit [ClzZero] in
theorem lateFree_next (h : lateFree c s th ptr = .next s' th') :
    ∃ j, (allocLocalMemoryManager c s.heap.g (MemUtil.ptrToCore s.heap.store.mem ptr)).1 = some j ∧
      th' = th.push (.freeing j ptr) ∧
      s' = { s with heap := { s.heap with
        g := (allocLocalMemoryManager c s.heap.g (MemUtil.ptrToCore s.heap.store.mem ptr)).2 } } := by
  unfold lateFree at h
  dsimp only at h
  split at h
  · exact absurd h (by simp)
  case h_2 j hj =>
    obtain ⟨rfl, rfl⟩ := Result.next.inj h
    exact ⟨j, hj, rfl, rfl⟩

/-- Counting a free changes the counters and may start a flush. -/
theorem countFree_cases (c : Config) (main : Bool) (s : Shared) (th : Thread) (j ptr : Nat) :
    ∃ cnts, countFree c main s th j ptr = { th with cntsPerSize := cnts } ∨
      countFree c main s th j ptr = { th with cntsPerSize := cnts }.push (.flush j 0) := by
  unfold countFree
  dsimp only
  split
  · exact ⟨_, Or.inr rfl⟩
  · exact ⟨_, Or.inl rfl⟩

theorem free_next (h : free c main s th ptr = .next s' th') :
    (ptr = 0 ∧ s' = s ∧ th' = th) ∨
    (ptr ≠ 0 ∧ th.lp = none ∧ lateFree c s th ptr = .next s' th') ∨
    ∃ j, ptr ≠ 0 ∧ th.lp = some j ∧
      s' = { s.setStore ((managerPools c j).free s.heap.store ptr) with live := s.live.erase ptr } ∧
      th' = countFree c main s' th j ptr := by
  unfold free at h
  split at h
  case isTrue hnull =>
    obtain ⟨rfl, rfl⟩ := Result.next.inj h
    exact Or.inl ⟨hnull, rfl, rfl⟩
  case isFalse hptr =>
    split at h
    case h_1 hlp => exact Or.inr (Or.inl ⟨hptr, hlp, h⟩)
    case h_2 j hlp =>
      obtain ⟨rfl, rfl⟩ := Result.next.inj h
      exact Or.inr (Or.inr ⟨j, hptr, hlp, rfl, rfl⟩)

omit [ClzZero] in
theorem allFree_next (h : allFree s th = .next s' th') :
    ∃ j, th.lp = some j ∧ s' = s ∧ th' = th.push (.flush j 0) := by
  unfold allFree at h
  split at h
  · exact absurd h (by simp)
  case h_2 j hlp =>
    obtain ⟨rfl, rfl⟩ := Result.next.inj h
    exact ⟨j, hlp, rfl, rfl⟩

/-- `Malloc` after the arena: the blocks are carved and the front one taken. -/
theorem serve_next (h : serve c s th r p = .next s' th') :
    th' = th ∧ ∃ heap, s.heap.carveInto c (r.lm c).mallocList (r.lm c).core r.size (r.n c) p =
        some heap ∧
      s' = { s with heap := ((r.lm c).mallocLast heap r.size).2 }.finish c r
        ((r.lm c).mallocLast heap r.size).1 := by
  unfold serve at h
  split at h
  · exact absurd h (by simp)
  case h_2 heap hheap =>
    obtain ⟨rfl, rfl⟩ := Result.next.inj h
    exact ⟨rfl, heap, hheap, rfl⟩

/-- The section under `mtxsPerCore_[core_]`: done, or stopped before the arena. -/
theorem resume_pool (h : resume c main s th ret (.pool r) = .next s' th') :
    let pooled := CommonMemoryPool.malloc c s.heap.store (r.lm c).mallocList (r.lm c).core r.size
    (pooled.1 ≠ 0 ∧ s' = (s.setStore pooled.2).finish c r pooled.1 ∧ th' = th) ∨
      (pooled.1 = 0 ∧ s' = s.setStore pooled.2 ∧ th' = th.push (.allocate r)) := by
  unfold resume at h
  dsimp only at h ⊢
  split at h
  case isTrue hpooled =>
    obtain ⟨rfl, rfl⟩ := Result.next.inj h
    exact Or.inl ⟨hpooled, rfl, rfl⟩
  case isFalse hpooled =>
    obtain ⟨rfl, rfl⟩ := Result.next.inj h
    exact Or.inr ⟨not_not.mp hpooled, rfl, rfl⟩

/-- The section under `mtxs_[core]`: served, or extended and about to print. -/
theorem resume_allocate (h : resume c main s th ret (.allocate r) = .next s' th') :
    ∃ served mm touched, s.heap.mm.enter c main (r.lm c).core (r.mmapSize c) ret =
        some (served, mm, touched) ∧
      ((∃ p, served = some p ∧
          serve c { s with heap := s.heap.touch mm touched } th r p = .next s' th') ∨
        (served = none ∧ s' = { s with heap := s.heap.touch mm touched } ∧
          th' = th.push (.printing r .extended))) := by
  unfold resume at h
  dsimp only at h
  split at h
  · exact absurd h (by simp)
  case h_2 served mm touched henter =>
    refine ⟨served, mm, touched, henter, ?_⟩
    split at h
    case h_1 p => exact Or.inl ⟨p, rfl, h⟩
    case h_2 =>
      obtain ⟨rfl, rfl⟩ := Result.next.inj h
      exact Or.inr ⟨rfl, rfl, rfl⟩

/-- After the report: a second one, or the range is served. -/
theorem resume_reported (h : resume c main s th ret (.printing r .reported) = .next s' th') :
    let a := r.arena c main
    (s.heap.mm.restSize a < r.mmapSize c ∧ s' = s ∧ th' = th.push (.printing r .exhausted)) ∨
      (¬ s.heap.mm.restSize a < r.mmapSize c ∧
        serve c (s.setMm (s.heap.mm.serve a (r.mmapSize c)).2) th r
          (s.heap.mm.serve a (r.mmapSize c)).1 = .next s' th') := by
  unfold resume at h
  dsimp only at h ⊢
  split at h
  case isTrue hrest =>
    obtain ⟨rfl, rfl⟩ := Result.next.inj h
    exact Or.inl ⟨hrest, rfl, rfl⟩
  case isFalse hrest => exact Or.inr ⟨hrest, h⟩

end Functions

/-! ### The stack -/

/-- The frame a call stops in when it does not finish at once. -/
inductive Starts (th : Thread) : Action → Frame → Prop
  | malloc {size : Nat} {r : Request} :
      th.lp = some r.manager → r.size ≠ 0 → Starts th (.malloc size) (.pool r)
  | calloc {nmemb size : Nat} {r : Request} :
      th.lp = some r.manager → r.size ≠ 0 → Starts th (.calloc nmemb size) (.pool r)
  | realloc {ptr size : Nat} {r : Request} :
      th.lp = some r.manager → r.size ≠ 0 → Starts th (.realloc ptr size) (.pool r)
  | lateFree {ptr j : Nat} : Starts th (.free ptr) (.freeing j ptr)
  | free {ptr j : Nat} : th.lp = some j → Starts th (.free ptr) (.flush j 0)
  | allFree {j : Nat} : th.lp = some j → Starts th .allFree (.flush j 0)

/-- The frame a function goes on to. -/
inductive Follows [ClzZero] (c : Config) (main : Bool) (s : Shared) : Frame → Frame → Prop
  | allocate {r : Request} : Follows c main s (.pool r) (.allocate r)
  | extended {r : Request} : Follows c main s (.allocate r) (.printing r .extended)
  | reporting {r : Request} : Follows c main s (.printing r .extended) (.printing r .reporting)
  | reported {r : Request} : Follows c main s (.printing r .reporting) (.printing r .reported)
  | exhausted {r : Request} : s.heap.mm.restSize (r.arena c main) < r.mmapSize c →
      Follows c main s (.printing r .reported) (.printing r .exhausted)
  | release {j ptr : Nat} : Follows c main s (.freeing j ptr) (.release j)
  | flush {j i : Nat} : i + 1 < (managerPools c j).coreN →
      Follows c main s (.flush j i) (.flush j (i + 1))

/-- The thread's lease, and how it came by it, are untouched. -/
structure Thread.KeepsLease (th th' : Thread) : Prop where
  started : th'.started = th.started
  granted : th'.granted = th.granted
  exited : th'.exited = th.exited
  lp : th'.lp = th.lp

theorem Thread.KeepsLease.rfl {th : Thread} {cnts : SizeClass → Int} {stack : List Frame} :
    th.KeepsLease { th with cntsPerSize := cnts, stack := stack } :=
  ⟨Eq.refl _, Eq.refl _, Eq.refl _, Eq.refl _⟩

section Stack

variable [ClzZero] {c : Config} {main : Bool} {s s' : Shared} {th th' : Thread} {r : Request}
  {a : Action} {f : Frame} {ret : Nat}

theorem enterMalloc_stack (h : enterMalloc c s th r = .next s' th') :
    th' = th ∨ (th' = th.push (.pool r) ∧ r.size ≠ 0) := by
  rcases enterMalloc_next h with ⟨-, -, hth⟩ | ⟨-, -, hth, -⟩ | ⟨hsize, -, hth, -⟩
  · exact Or.inl hth
  · exact Or.inl hth
  · exact Or.inr ⟨hth, hsize⟩

theorem resume_stack (h : resume c main s th ret f = .next s' th') :
    th' = th ∨ ∃ f', th' = th.push f' ∧ Follows c main s f f' := by
  cases f with
  | pool r =>
      rcases resume_pool h with ⟨-, -, hth⟩ | ⟨-, -, hth⟩
      · exact Or.inl hth
      · exact Or.inr ⟨_, hth, .allocate⟩
  | allocate r =>
      obtain ⟨_, _, _, -, ⟨p, -, hserve⟩ | ⟨-, -, hth⟩⟩ := resume_allocate h
      · exact Or.inl (serve_next hserve).1
      · exact Or.inr ⟨_, hth, .extended⟩
  | printing r phase =>
      cases phase with
      | extended =>
          obtain ⟨-, rfl⟩ := Result.next.inj h
          exact Or.inr ⟨_, rfl, .reporting⟩
      | reporting =>
          obtain ⟨-, rfl⟩ := Result.next.inj h
          exact Or.inr ⟨_, rfl, .reported⟩
      | reported =>
          rcases resume_reported h with ⟨hrest, -, hth⟩ | ⟨-, hserve⟩
          · exact Or.inr ⟨_, hth, .exhausted hrest⟩
          · exact Or.inl (serve_next hserve).1
      | exhausted => exact Or.inl (serve_next h).1
  | freeing j ptr =>
      obtain ⟨-, rfl⟩ := Result.next.inj h
      exact Or.inr ⟨_, rfl, .release⟩
  | release j =>
      obtain ⟨-, rfl⟩ := Result.next.inj h
      exact Or.inl rfl
  | flush j i =>
      obtain ⟨-, rfl⟩ := Result.next.inj h
      split
      case isTrue hlt => exact Or.inr ⟨_, rfl, .flush hlt⟩
      case isFalse => exact Or.inl rfl

/-- **The stack after a step**: as it was, with a call begun on top, or with its top gone
or replaced. Only `start` and `exit` change the lease. -/
theorem act_stack (h : act c main s th a = .next s' th') :
    (th'.stack = th.stack ∧ (th.KeepsLease th' ∨ (∃ core, a = .start core) ∨ a = .exit)) ∨
    (∃ f, th'.stack = f :: th.stack ∧ th.KeepsLease th' ∧ Starts th a f) ∨
    ∃ ret f rest, a = .resume ret ∧ th.stack = f :: rest ∧ th.KeepsLease th' ∧
      (th'.stack = rest ∨ ∃ f', th'.stack = f' :: rest ∧ Follows c main s f f') := by
  -- a call that asks for memory either finishes at once or stops in front of the pool
  have hcall : ∀ r, (r.size ≠ 0 → Starts th a (.pool r)) → enterMalloc c s th r = .next s' th' →
      (th'.stack = th.stack ∧ (th.KeepsLease th' ∨ (∃ core, a = .start core) ∨ a = .exit)) ∨
      (∃ f, th'.stack = f :: th.stack ∧ th.KeepsLease th' ∧ Starts th a f) := by
    intro r hstarts henter
    obtain rfl | ⟨rfl, hsize⟩ := enterMalloc_stack henter
    · exact Or.inl ⟨rfl, Or.inl .rfl⟩
    · exact Or.inr ⟨_, rfl, .rfl, hstarts hsize⟩
  cases a with
  | start core =>
      obtain ⟨-, rfl⟩ := Result.next.inj h
      exact Or.inl ⟨rfl, Or.inr (Or.inl ⟨core, rfl⟩)⟩
  | exit =>
      refine Or.inl ⟨?_, Or.inr (Or.inr rfl)⟩
      rw [act, threadTerm] at h
      split at h <;> obtain ⟨-, rfl⟩ := Result.next.inj h <;> rfl
  | malloc size =>
      rcases malloc_next h with ⟨-, -, rfl⟩ | ⟨j, -, hlp, henter⟩
      · exact Or.inl ⟨rfl, Or.inl .rfl⟩
      · exact (hcall _ (fun hsize => .malloc hlp hsize) henter).imp id Or.inl
  | calloc nmemb size =>
      rcases calloc_next h with ⟨-, rfl⟩ | ⟨j, -, hlp, henter⟩
      · exact Or.inl ⟨rfl, Or.inl .rfl⟩
      · exact (hcall _ (fun hsize => .calloc hlp hsize) henter).imp id Or.inl
  | realloc ptr size =>
      obtain ⟨-, hmalloc⟩ | ⟨-, -, rfl, -⟩ | ⟨j, -, -, hlp, henter⟩ := realloc_next h
      · rcases malloc_next hmalloc with ⟨-, -, rfl⟩ | ⟨j, -, hlp, henter⟩
        · exact Or.inl ⟨rfl, Or.inl .rfl⟩
        · exact (hcall _ (fun hsize => .realloc hlp hsize) henter).imp id Or.inl
      · exact Or.inl ⟨rfl, Or.inl .rfl⟩
      · exact (hcall _ (fun hsize => .realloc hlp hsize) henter).imp id Or.inl
  | free ptr =>
      obtain ⟨-, -, rfl⟩ | ⟨-, -, hlate⟩ | ⟨j, -, hlp, -, hth⟩ := free_next h
      · exact Or.inl ⟨rfl, Or.inl .rfl⟩
      · obtain ⟨j, -, rfl, -⟩ := lateFree_next hlate
        exact Or.inr (Or.inl ⟨_, rfl, .rfl, .lateFree⟩)
      · obtain ⟨cnts, hcount | hcount⟩ := countFree_cases c main s' th j ptr
        · rw [hth, hcount]
          exact Or.inl ⟨rfl, Or.inl .rfl⟩
        · rw [hth, hcount]
          exact Or.inr (Or.inl ⟨_, rfl, .rfl, .free hlp⟩)
  | allFree =>
      obtain ⟨j, hlp, -, rfl⟩ := allFree_next h
      exact Or.inr (Or.inl ⟨_, rfl, .rfl, .allFree hlp⟩)
  | store addr v =>
      obtain ⟨-, rfl⟩ := Result.next.inj h
      exact Or.inl ⟨rfl, Or.inl .rfl⟩
  | resume ret =>
      rw [act] at h
      split at h
      · exact absurd h (by simp)
      case h_2 f rest hstack =>
        refine Or.inr (Or.inr ⟨ret, f, rest, rfl, hstack, ?_⟩)
        obtain rfl | ⟨f', rfl, hfollows⟩ := resume_stack h
        · exact ⟨.rfl, Or.inl rfl⟩
        · exact ⟨.rfl, Or.inr ⟨f', rfl, hfollows⟩⟩

/-- **A thread keeps its lease** in every step but its start and its end, which are outside
of all calls. -/
theorem act_lease_cases (hready : th.ready a = true) (h : act c main s th a = .next s' th') :
    th.KeepsLease th' ∨
      (((∃ core, a = .start core) ∨ a = .exit) ∧ th.stack = [] ∧ th'.stack = []) := by
  have hidle : ((∃ core, a = .start core) ∨ a = .exit) → th.stack = [] := by
    intro hends
    obtain ⟨core, rfl⟩ | rfl := hends
    · simp only [Thread.ready, Bool.and_eq_true, decide_eq_true_eq] at hready
      exact hready.2
    · simp only [Thread.ready, Bool.and_eq_true, decide_eq_true_eq] at hready
      exact hready.2
  obtain ⟨hstack, hk | hends⟩ | ⟨-, -, hk, -⟩ | ⟨-, -, -, -, -, hk, -⟩ := act_stack h
  · exact Or.inl hk
  · exact Or.inr ⟨hends, hidle hends, hstack.trans (hidle hends)⟩
  · exact Or.inl hk
  · exact Or.inl hk

end Stack

/-! ### The lease flags -/

section Leases

variable [ClzZero] {c : Config} {main : Bool} {s s' : Shared} {th th' : Thread} {r : Request}
  {a : Action} {ret p : Nat} {f : Frame}

theorem finish_g (ptr : Nat) : (s.finish c r ptr).heap.g = s.heap.g := by
  unfold Shared.finish
  dsimp only
  split
  · rfl
  · split <;> rfl

theorem finish_returned {ptr : Nat} : (s.finish c r ptr).returned =
    ⟨some (r.lm c).core, r.size, ptr⟩ :: s.returned := by
  unfold Shared.finish
  dsimp only
  split
  · rfl
  · split <;> rfl

theorem finish_carved {ptr : Nat} : (s.finish c r ptr).heap.carved = s.heap.carved := by
  unfold Shared.finish
  dsimp only
  split
  · rfl
  · split <;> rfl

theorem carveInto_g {heap heap' : Process} {l : ListId} {core size n : Nat}
    (h : heap.carveInto c l core size n p = some heap') : heap'.g = heap.g := by
  obtain ⟨_, -, rfl⟩ := Option.map_eq_some_iff.mp h
  rfl

theorem enterMalloc_g (h : enterMalloc c s th r = .next s' th') : s'.heap.g = s.heap.g := by
  obtain ⟨-, rfl, -⟩ | ⟨-, -, -, rfl⟩ | ⟨-, -, -, rfl⟩ := enterMalloc_next h
  · exact finish_g 0
  · exact finish_g _
  · rfl

theorem serve_g (h : serve c s th r p = .next s' th') : s'.heap.g = s.heap.g := by
  obtain ⟨-, heap, hheap, rfl⟩ := serve_next h
  have hcarved := carveInto_g hheap
  rw [finish_g]
  exact hcarved

/-- Only the end of `GlobalMemoryManager::Free` takes a manager back. -/
theorem resume_g (h : resume c main s th ret f = .next s' th') :
    s'.heap.g = s.heap.g ∨ ∃ j, f = .release j ∧
      s'.heap.g = (freeLocalMemoryManager c s.heap.g s.heap.store j).1 := by
  cases f with
  | pool r =>
      obtain ⟨-, rfl, -⟩ | ⟨-, rfl, -⟩ := resume_pool h
      · exact Or.inl (finish_g _)
      · exact Or.inl rfl
  | allocate r =>
      obtain ⟨_, _, _, -, ⟨p, -, hserve⟩ | ⟨-, rfl, -⟩⟩ := resume_allocate h
      · exact Or.inl ((serve_g hserve).trans rfl)
      · exact Or.inl rfl
  | printing r phase =>
      cases phase with
      | extended | reporting =>
          obtain ⟨rfl, -⟩ := Result.next.inj h
          exact Or.inl rfl
      | reported =>
          obtain ⟨-, rfl, -⟩ | ⟨-, hserve⟩ := resume_reported h
          · exact Or.inl rfl
          · exact Or.inl ((serve_g hserve).trans rfl)
      | exhausted => exact Or.inl (serve_g h)
  | freeing j ptr | flush j i =>
      obtain ⟨rfl, -⟩ := Result.next.inj h
      exact Or.inl rfl
  | release j =>
      obtain ⟨rfl, -⟩ := Result.next.inj h
      exact Or.inr ⟨j, rfl, rfl⟩

theorem malloc_g {size : Nat} {caller : Caller} (h : malloc c s th size caller = .next s' th') :
    s'.heap.g = s.heap.g := by
  obtain ⟨-, rfl, -⟩ | ⟨j, -, -, henter⟩ := malloc_next h
  · rfl
  · exact enterMalloc_g henter

/-- **The flags after a step**: unchanged, or after one call that leases or takes back, for a
thread that starts or ends or in `GlobalMemoryManager::Free`. -/
theorem act_g (h : act c main s th a = .next s' th') :
    s'.heap.g = s.heap.g ∨
    (∃ core, s'.heap.g = (allocLocalMemoryManager c s.heap.g core).2 ∧
      (a = .start core ∨ ∃ ptr, a = .free ptr ∧ th.lp = none)) ∨
    ∃ j, s'.heap.g = (freeLocalMemoryManager c s.heap.g s.heap.store j).1 ∧
      (a = .exit ∨ ∃ ret rest, a = .resume ret ∧ th.stack = .release j :: rest) := by
  cases a with
  | start core =>
      obtain ⟨rfl, -⟩ := Result.next.inj h
      exact Or.inr (Or.inl ⟨core, rfl, Or.inl rfl⟩)
  | exit =>
      rw [act, threadTerm] at h
      split at h
      · obtain ⟨rfl, -⟩ := Result.next.inj h
        exact Or.inl rfl
      · obtain ⟨rfl, -⟩ := Result.next.inj h
        exact Or.inr (Or.inr ⟨_, rfl, Or.inl rfl⟩)
  | malloc size => exact Or.inl (malloc_g h)
  | calloc nmemb size =>
      obtain ⟨rfl, -⟩ | ⟨j, -, -, henter⟩ := calloc_next h
      · exact Or.inl rfl
      · exact Or.inl (enterMalloc_g henter)
  | realloc ptr size =>
      obtain ⟨-, hmalloc⟩ | ⟨-, -, -, rfl⟩ | ⟨j, -, -, -, henter⟩ := realloc_next h
      · exact Or.inl (malloc_g hmalloc)
      · exact Or.inl rfl
      · exact Or.inl (enterMalloc_g henter)
  | free ptr =>
      obtain ⟨-, rfl, -⟩ | ⟨-, hlp, hlate⟩ | ⟨j, -, -, rfl, -⟩ := free_next h
      · exact Or.inl rfl
      · obtain ⟨j, -, -, rfl⟩ := lateFree_next hlate
        exact Or.inr (Or.inl ⟨_, rfl, Or.inr ⟨ptr, rfl, hlp⟩⟩)
      · exact Or.inl rfl
  | allFree =>
      obtain ⟨j, -, rfl, -⟩ := allFree_next h
      exact Or.inl rfl
  | store addr v =>
      obtain ⟨rfl, -⟩ := Result.next.inj h
      exact Or.inl rfl
  | resume ret =>
      rw [act] at h
      split at h
      · exact absurd h (by simp)
      case h_2 f rest hstack =>
        cases resume_g h with
        | inl hg => exact Or.inl hg
        | inr hback =>
            obtain ⟨j, rfl, hg⟩ := hback
            exact Or.inr (Or.inr ⟨j, hg, Or.inr ⟨ret, rest, rfl, hstack⟩⟩)

/-- The rotating offset of the leases never drops below its start. -/
theorem act_allocOffset (hoff : -1 ≤ s.heap.g.allocOffset) (h : act c main s th a = .next s' th') :
    -1 ≤ s'.heap.g.allocOffset := by
  obtain hg | ⟨core, hg, -⟩ | ⟨j, hg, -⟩ := act_g h
  · rwa [hg]
  · have hlow := (nextOffset_bounds hoff c.poolN_pos).1
    have hnext : (allocLocalMemoryManager c s.heap.g core).2.allocOffset =
        nextOffset s.heap.g.allocOffset c.poolN := by
      unfold allocLocalMemoryManager
      dsimp only
      split <;> rfl
    rw [hg, hnext]
    omega
  · have hsame : (freeLocalMemoryManager c s.heap.g s.heap.store j).1.allocOffset =
        s.heap.g.allocOffset := by
      unfold freeLocalMemoryManager
      dsimp only
      split <;> rfl
    rwa [hg, hsame]

end Leases

/-! ### The machine -/

namespace World

variable [ClzZero] {c : Config} {w w' : World} {t : Nat} {a : Action} {m : Mutex}

/-- **A step that was made**: the thread was ready, the mutex it locks was free, and the
result is that of `act`. -/
theorem step_next (h : w.step c t a = .next w') :
    (w.threads t).ready a = true ∧
      (∀ m, locks c (mainThread t) w.shared (w.threads t) a = some m → w.owner m = none) ∧
      ∃ s th, act c (mainThread t) w.shared (w.threads t) a = .next s th ∧
        w' = w.commit c t s th := by
  have hgo : ∀ {w'}, w.go c t a = .next w' →
      ∃ s th, act c (mainThread t) w.shared (w.threads t) a = .next s th ∧
        w' = w.commit c t s th := by
    intro w' hgo
    unfold go at hgo
    split at hgo
    case h_1 s th hact =>
      obtain rfl := Outcome.next.inj hgo
      exact ⟨s, th, hact, rfl⟩
    · exact absurd hgo (by simp)
    · exact absurd hgo (by simp)
  unfold step at h
  split at h
  · exact absurd h (by simp)
  case isFalse hready =>
    refine ⟨by simpa using hready, ?_⟩
    split at h
    case h_1 hlocks => exact ⟨fun m hm => absurd (hlocks.symm.trans hm) (by simp), hgo h⟩
    case h_2 m hlocks =>
      split at h
      case h_1 howner =>
        refine ⟨fun m' hm => ?_, hgo h⟩
        obtain rfl := Option.some.inj (hlocks.symm.trans hm)
        exact howner
      · split at h <;> exact absurd h (by simp)

/-- A step that locks a mutex its thread already holds. -/
theorem step_relock (h : w.step c t a = .relock m) :
    (w.threads t).ready a = true ∧
      locks c (mainThread t) w.shared (w.threads t) a = some m ∧ w.owner m = some t := by
  have hgo : w.go c t a ≠ .relock m := by
    unfold go
    split <;> simp
  unfold step at h
  split at h
  · exact absurd h (by simp)
  case isFalse hready =>
    refine ⟨by simpa using hready, ?_⟩
    split at h
    · exact absurd h hgo
    case h_2 m' hlocks =>
      split at h
      · exact absurd h hgo
      case h_2 t' howner =>
        split at h
        case isTrue ht =>
          obtain rfl := Outcome.relock.inj h
          exact ⟨hlocks, ht ▸ howner⟩
        · exact absurd h (by simp)

/-- A step that calls a member function of a null manager. -/
theorem step_nullManager (h : w.step c t a = .nullManager) :
    (w.threads t).ready a = true ∧
      act c (mainThread t) w.shared (w.threads t) a = .nullManager := by
  have hgo : w.go c t a = .nullManager →
      act c (mainThread t) w.shared (w.threads t) a = .nullManager := by
    intro hgo
    unfold go at hgo
    split at hgo
    · exact absurd hgo (by simp)
    · exact absurd hgo (by simp)
    case h_3 hact => exact hact
  unfold step at h
  split at h
  · exact absurd h (by simp)
  case isFalse hready =>
    refine ⟨by simpa using hready, ?_⟩
    split at h
    · exact hgo h
    · split at h
      · exact hgo h
      · split at h <;> exact absurd h (by simp)

omit [ClzZero] in
@[simp] theorem commit_shared (s : Shared) (th : Thread) : (w.commit c t s th).shared = s := rfl

omit [ClzZero] in
theorem commit_threads (s : Shared) (th : Thread) :
    (w.commit c t s th).threads = Function.update w.threads t th := rfl

omit [ClzZero] in
/-- What holds of every thread, after a step of one. -/
theorem forall_commit {s : Shared} {th : Thread} {P : Nat → Thread → Prop}
    (h : ∀ t', P t' (w.threads t')) (hself : P t th) :
    ∀ t', P t' ((w.commit c t s th).threads t') :=
  (Function.forall_update_iff w.threads P).mpr ⟨hself, fun t' _ => h t'⟩

end World

end FCMalloc.Machine
