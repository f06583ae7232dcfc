import FCMalloc.GlobalMemoryManager

/-!
# FCMalloc.Leasing

Leases of managers, over every interleaving of the locked sections of
`global_memory_manager.cpp`.

A `State` has the flags and offsets, the free lists, and the leases held, which are
history: a thread holds one for each manager that `AllocLocalMemoryManager` gave it and
one while it is inside `GlobalMemoryManager::Free`, whose three sections are three
actions. What holders do with their lists in between is `work`, an arbitrary change
of the store, since nothing here depends on it.

`Exclusive` is the invariant: the flags are true exactly at the leased managers, and no
manager is leased twice. `step_exclusive` preserves it, and `reachable_leases` reads off
what the two scans do in any reachable state.
-/

namespace FCMalloc.Leasing

open GlobalMemoryManager

/-- What a manager is leased for: a thread's own use, or one call of
`GlobalMemoryManager::Free`, before and after its `lp->Free(ptr)`. -/
inductive Purpose
  | own
  | freeing (ptr : Nat)
  | freed
  deriving DecidableEq, Repr

/-- A lease of `managerPools_[manager]` held by a thread. -/
structure Lease where
  thread : Nat
  manager : Nat
  purpose : Purpose
  deriving DecidableEq, Repr

structure State where
  g : GlobalMemoryManager
  store : Store ListId
  leases : List Lease

/-- The locked sections, and everything else that happens to the lists. -/
inductive Action
  | alloc (thread core : Nat)
  | release (thread manager : Nat)
  | freeBegin (thread ptr : Nat)
  | freePush (thread manager ptr : Nat)
  | freeEnd (thread manager : Nat)
  | work (store : Store ListId)

/-- The state after `AllocLocalMemoryManager(core)` by a thread for some purpose. -/
def grant (c : Config) (w : State) (thread core : Nat) (purpose : Purpose) : State :=
  let r := allocLocalMemoryManager c w.g core
  match r.1 with
  | some j => { w with g := r.2, leases := ⟨thread, j, purpose⟩ :: w.leases }
  | none => { w with g := r.2 }

/-- The state after `FreeLocalMemoryManager` on a leased manager. -/
def takeBack (c : Config) (w : State) (lease : Lease) : State :=
  let r := freeLocalMemoryManager c w.g w.store lease.manager
  { g := r.1, store := r.2, leases := w.leases.erase lease }

/-- One action, if it is possible. A thread gives back only what it leased, and a call
of `GlobalMemoryManager::Free` goes on only if its lease is granted. -/
def step (c : Config) (w : State) : Action → Option State
  | .alloc thread core => if core < c.coreN then some (grant c w thread core .own) else none
  | .release thread manager =>
      let lease := ⟨thread, manager, .own⟩
      if lease ∈ w.leases then some (takeBack c w lease) else none
  | .freeBegin thread ptr =>
      let core := MemUtil.ptrToCore w.store.mem ptr
      if core < c.coreN ∧ (allocLocalMemoryManager c w.g core).1.isSome then
        some (grant c w thread core (.freeing ptr))
      else none
  | .freePush thread manager ptr =>
      let lease := ⟨thread, manager, .freeing ptr⟩
      if lease ∈ w.leases then
        some { w with
          store := (managerPools c manager).free w.store ptr
          leases := ⟨thread, manager, .freed⟩ :: w.leases.erase lease }
      else none
  | .freeEnd thread manager =>
      let lease := ⟨thread, manager, .freed⟩
      if lease ∈ w.leases then some (takeBack c w lease) else none
  | .work store => some { w with store }

/-- The states reached from `Init` with any contents of the lists. -/
inductive Reachable (c : Config) : State → Prop
  | init (store : Store ListId) : Reachable c ⟨GlobalMemoryManager.init c, store, []⟩
  | step {w w' : State} {a : Action} : Reachable c w → step c w a = some w' → Reachable c w'

/-! ### The invariant -/

/-- Flags and leases agree and no manager is leased twice. -/
structure Exclusive (c : Config) (w : State) : Prop where
  flags : ∀ j, w.g.poolFlags j = true ↔ ∃ lease ∈ w.leases, lease.manager = j
  unique : (w.leases.map Lease.manager).Nodup
  managers : ∀ lease ∈ w.leases, lease.manager < managerN c
  allocOffset : -1 ≤ w.g.allocOffset
  freeOffset : -1 ≤ w.g.freeOffset

section Invariant

variable {c : Config} {w w' : State} {a : Action} {lease lease' : Lease} {thread core : Nat}
  {purpose : Purpose}

theorem init_exclusive (store : Store ListId) :
    Exclusive c ⟨GlobalMemoryManager.init c, store, []⟩ where
  flags j := by simp [init_poolFlags]
  unique := List.nodup_nil
  managers := by simp
  allocOffset := Int.le_refl _
  freeOffset := Int.le_refl _

/-- Giving one lease up leaves the other managers' leases. -/
theorem Exclusive.mem_erase (h : Exclusive c w) (hlease : lease ∈ w.leases) :
    lease' ∈ w.leases.erase lease ↔ lease' ∈ w.leases ∧ lease'.manager ≠ lease.manager := by
  rw [(List.Nodup.of_map _ h.unique).mem_erase_iff]
  constructor
  · rintro ⟨hne, hmem⟩
    exact ⟨hmem, fun heq => hne (List.inj_on_of_nodup_map h.unique hmem hlease heq)⟩
  · rintro ⟨hmem, hne⟩
    exact ⟨fun heq => hne (congrArg Lease.manager heq), hmem⟩

theorem Exclusive.unique_erase (h : Exclusive c w) :
    ((w.leases.erase lease).map Lease.manager).Nodup :=
  h.unique.sublist (List.erase_sublist.map _)

/-- A lease granted is of a manager nobody holds. -/
theorem Exclusive.grant (h : Exclusive c w) (hcore : core < c.coreN) :
    Exclusive c (grant c w thread core purpose) := by
  have hlow := (nextOffset_bounds h.allocOffset c.poolN_pos).1
  unfold Leasing.grant
  obtain ⟨i, hi, hidle, heq⟩ | ⟨-, heq⟩ :=
    allocLocalMemoryManager_spec (c := c) h.allocOffset core
  · have hfree : ∀ lease ∈ w.leases, lease.manager ≠ c.poolN * core + i := fun lease hl hm => by
      rw [(h.flags _).mpr ⟨lease, hl, hm⟩] at hidle
      exact Bool.noConfusion hidle
    rw [heq]
    constructor
    case flags =>
      intro j
      by_cases hj : j = c.poolN * core + i
      · simp [hj]
      · simp [hj, Ne.symm hj, h.flags j]
    case unique =>
      rw [List.map_cons, List.nodup_cons]
      refine ⟨fun hmem => ?_, h.unique⟩
      obtain ⟨lease, hl, hm⟩ := List.mem_map.mp hmem
      exact hfree lease hl hm
    case managers =>
      intro lease hl
      rcases List.mem_cons.mp hl with rfl | hl
      · exact slot_lt hcore hi
      · exact h.managers lease hl
    case allocOffset =>
      dsimp only
      omega
    case freeOffset => exact h.freeOffset
  · rw [heq]
    refine { h with allocOffset := ?_ }
    dsimp only
    omega

theorem Exclusive.takeBack (h : Exclusive c w) (hlease : lease ∈ w.leases) :
    Exclusive c (takeBack c w lease) := by
  have hlow := (nextOffset_bounds h.freeOffset c.coreN_pos).1
  have hleased := (h.flags _).mpr ⟨lease, hlease, rfl⟩
  unfold Leasing.takeBack
  rw [freeLocalMemoryManager_spec h.freeOffset (h.managers lease hlease) hleased]
  constructor
  case flags =>
    intro j
    by_cases hj : j = lease.manager
    · simp [hj, h.mem_erase hlease]
    · simp only [Function.update_of_ne hj, h.flags j, h.mem_erase hlease]
      constructor
      · rintro ⟨lease', hl, rfl⟩
        exact ⟨lease', ⟨hl, hj⟩, rfl⟩
      · rintro ⟨lease', ⟨hl, -⟩, rfl⟩
        exact ⟨lease', hl, rfl⟩
  case unique => exact h.unique_erase
  case managers => exact fun lease' hl => h.managers lease' (List.mem_of_mem_erase hl)
  case allocOffset => exact h.allocOffset
  case freeOffset =>
    dsimp only
    omega

/-- **One action** keeps flags and leases in agreement. -/
theorem step_exclusive (h : Exclusive c w) (hstep : step c w a = some w') : Exclusive c w' := by
  cases a with
  | alloc thread core =>
      obtain ⟨hcore, hw⟩ := Option.ite_none_right_eq_some.mp hstep
      obtain rfl := Option.some.inj hw
      exact h.grant hcore
  | release thread manager =>
      obtain ⟨hlease, hw⟩ := Option.ite_none_right_eq_some.mp hstep
      obtain rfl := Option.some.inj hw
      exact h.takeBack hlease
  | freeBegin thread ptr =>
      obtain ⟨⟨hcore, -⟩, hw⟩ := Option.ite_none_right_eq_some.mp hstep
      obtain rfl := Option.some.inj hw
      exact h.grant hcore
  | freePush thread manager ptr =>
      -- one lease is traded for another on the same manager
      obtain ⟨hlease, hw⟩ := Option.ite_none_right_eq_some.mp hstep
      obtain rfl := Option.some.inj hw
      constructor
      case flags =>
        intro j
        rw [h.flags j]
        constructor
        · rintro ⟨lease, hl, rfl⟩
          by_cases hm : lease.manager = manager
          · exact ⟨_, List.mem_cons_self, hm.symm⟩
          · exact ⟨lease, List.mem_cons_of_mem _ ((h.mem_erase hlease).mpr ⟨hl, hm⟩), rfl⟩
        · rintro ⟨lease, hl, rfl⟩
          rcases List.mem_cons.mp hl with rfl | hl
          · exact ⟨_, hlease, rfl⟩
          · exact ⟨lease, List.mem_of_mem_erase hl, rfl⟩
      case unique =>
        rw [List.map_cons, List.nodup_cons]
        refine ⟨fun hmem => ?_, h.unique_erase⟩
        obtain ⟨lease, hl, hm⟩ := List.mem_map.mp hmem
        exact ((h.mem_erase hlease).mp hl).2 hm
      case managers =>
        intro lease hl
        rcases List.mem_cons.mp hl with rfl | hl
        · have hmanager := h.managers _ hlease
          exact hmanager
        · exact h.managers lease (List.mem_of_mem_erase hl)
      case allocOffset => exact h.allocOffset
      case freeOffset => exact h.freeOffset
  | freeEnd thread manager =>
      obtain ⟨hlease, hw⟩ := Option.ite_none_right_eq_some.mp hstep
      obtain rfl := Option.some.inj hw
      exact h.takeBack hlease
  | work store =>
      obtain rfl := Option.some.inj hstep
      exact ⟨h.flags, h.unique, h.managers, h.allocOffset, h.freeOffset⟩

theorem Reachable.exclusive (h : Reachable c w) : Exclusive c w := by
  induction h with
  | init store => exact init_exclusive store
  | step _ hstep ih => exact step_exclusive ih hstep

end Invariant

/-! ### The two scans in a reachable state -/

/-- `AllocLocalMemoryManager(core)` returns a manager of the core if any is idle and
null only if all are leased, whatever its offset. -/
def GrantsIdle (c : Config) (g : GlobalMemoryManager) (core : Nat) : Prop :=
  ∀ offset : Int, -1 ≤ offset →
    ((∃ i < c.poolN, g.poolFlags (c.poolN * core + i) = false) →
      ∃ j < managerN c,
        (allocLocalMemoryManager c { g with allocOffset := offset } core).1 = some j ∧
          (managerPools c j).core = core ∧ g.poolFlags j = false) ∧
    ((allocLocalMemoryManager c { g with allocOffset := offset } core).1 = none →
      ∀ i < c.poolN, g.poolFlags (c.poolN * core + i) = true)

/-- `malloc_` or one of the `free_[k]` of manager `j`. -/
def ListOf (c : Config) (j : Nat) (l : ListId) : Prop :=
  l = (managerPools c j).mallocList ∨ ∃ k < c.coreN, l = (managerPools c j).freeLists k

/-- `FreeLocalMemoryManager(m)` clears the flag of `m` and no other, and leaves every
list of every other leased manager alone: its caches, and the blocks linked on it. -/
def TakesBack (c : Config) (g : GlobalMemoryManager) (s : Store ListId) (m : Nat) : Prop :=
  (freeLocalMemoryManager c g s m).1.poolFlags = Function.update g.poolFlags m false ∧
    ∀ j < managerN c, g.poolFlags j = true → j ≠ m → ∀ l, ListOf c j l →
      (freeLocalMemoryManager c g s m).2.lists l = s.lists l ∧
      ∀ N q, Sound N s q → ∃ q', Sound N (freeLocalMemoryManager c g s m).2 q' ∧
        ∀ i, q' (l, i) = q (l, i)

section Scans

variable {c : Config} {g : GlobalMemoryManager} {s : Store ListId} {core j m : Nat} {l : ListId}

theorem grantsIdle (hcore : core < c.coreN) : GrantsIdle c g core := by
  intro offset hoff
  obtain ⟨i, hi, hidle, heq⟩ | ⟨hbusy, heq⟩ :=
    allocLocalMemoryManager_spec (c := c) (g := { g with allocOffset := offset }) hoff core
  · rw [heq]
    have hslot := slot_lt hcore hi
    exact ⟨fun _ => ⟨_, hslot, rfl, by rw [core_manager hslot, slot_div hi], hidle⟩,
      fun hnone => absurd hnone (Option.some_ne_none _)⟩
  · rw [heq]
    refine ⟨fun ⟨i, hi, hidle⟩ => ?_, fun _ => hbusy⟩
    exact Bool.noConfusion ((hbusy i hi).symm.trans hidle)

/-- No list of a leased manager takes part in the hand-back of another. -/
theorem not_handBackList (hj : j < managerN c) (hm : m < managerN c)
    (hleased : g.poolFlags j = true) (hne : j ≠ m) (hl : ListOf c j l) :
    ¬ HandBackList c g m l := by
  rintro (⟨k, hk, rfl⟩ | ⟨j', hj', hidle, rfl⟩)
  · rcases hl with heq | ⟨k', hk', heq⟩
    · exact mallocList_ne_freeLists hj hm hk heq.symm
    · exact hne (freeLists_inj hm hj hk hk' heq).1.symm
  · rcases hl with heq | ⟨k', hk', heq⟩
    · rw [mallocList_inj hj' hj heq, hleased] at hidle
      exact Bool.noConfusion hidle
    · exact mallocList_ne_freeLists hj' hj hk' heq

theorem takesBack (hoff : -1 ≤ g.freeOffset) (hm : m < managerN c) (hflag : g.poolFlags m = true) :
    TakesBack c g s m := by
  unfold TakesBack
  rw [freeLocalMemoryManager_spec hoff hm hflag]
  refine ⟨rfl, fun j hj hleased hne l hl => ?_⟩
  have hout := not_handBackList (g := { g with
    freeOffset := nextOffset g.freeOffset c.coreN }) hj hm hleased hne hl
  refine ⟨handBack_lists hout, fun N q hsound => ?_⟩
  obtain ⟨q', hmoved, hq⟩ := handBack_moved hm hsound
  exact ⟨q', hmoved.sound, hq.frame l hout⟩

end Scans

/-- **Leases are exclusive** in every reachable state: the flags are true exactly at the
leased managers, no manager is leased twice, `AllocLocalMemoryManager` finds an idle
manager of the core whenever there is one, and `FreeLocalMemoryManager` takes back the
manager it is given without touching another holder's lists. -/
theorem reachable_leases (c : Config) (w : State) (h : Reachable c w) :
    (∀ j, w.g.poolFlags j = true ↔ ∃ lease ∈ w.leases, lease.manager = j) ∧
    (w.leases.map Lease.manager).Nodup ∧
    (∀ core < c.coreN, GrantsIdle c w.g core) ∧
    (∀ lease ∈ w.leases, TakesBack c w.g w.store lease.manager) := by
  have hex := h.exclusive
  refine ⟨hex.flags, hex.unique, fun core hcore => grantsIdle hcore, fun lease hl => ?_⟩
  exact takesBack hex.freeOffset (hex.managers lease hl) ((hex.flags _).mpr ⟨lease, hl, rfl⟩)

/-- Memory and lists as `Init` leaves them. -/
def blankStore : Store ListId := ⟨fun _ => 0, fun _ => .init, 0⟩

theorem Reachable.foldlM {c : Config} {w w' : State} {as : List Action} (h : Reachable c w)
    (hrun : as.foldlM (Leasing.step c) w = some w') : Reachable c w' := by
  induction as generalizing w with
  | nil =>
      obtain rfl := Option.some.inj hrun
      exact h
  | cons a as ih =>
      rw [List.foldlM_cons] at hrun
      obtain ⟨w₁, hstep, hrest⟩ := Option.bind_eq_some_iff.mp hrun
      exact ih (.step h hstep) hrest

/-- Three threads start on a single core, the second one exits, and a fourth one starts. -/
def fourThreads : List Action :=
  [.alloc 1 0, .alloc 2 0, .alloc 3 0, .release 2 1, .alloc 4 0]

/-- The leases held are then those of the other three, and just their managers are flagged. -/
theorem reachable_leases_fourThreads : ∃ w, Reachable MmapManager.oneCore w ∧
    w.leases = [⟨4, 3, .own⟩, ⟨3, 2, .own⟩, ⟨1, 0, .own⟩] ∧
    (∀ j, w.g.poolFlags j = true ↔ ∃ lease ∈ w.leases, lease.manager = j) ∧
    (w.leases.map Lease.manager).Nodup := by
  have hleases : (fourThreads.foldlM (step MmapManager.oneCore)
      ⟨GlobalMemoryManager.init MmapManager.oneCore, blankStore, []⟩).map State.leases =
        some [⟨4, 3, .own⟩, ⟨3, 2, .own⟩, ⟨1, 0, .own⟩] := by decide +kernel
  obtain ⟨w, hrun, hleases⟩ := Option.map_eq_some_iff.mp hleases
  have hreach := Reachable.foldlM (.init blankStore) hrun
  obtain ⟨hflags, hunique, -⟩ := reachable_leases _ w hreach
  exact ⟨w, hreach, hleases, hflags, hunique⟩

end FCMalloc.Leasing
