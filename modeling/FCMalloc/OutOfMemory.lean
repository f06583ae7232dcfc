import FCMalloc.Allocator

/-!
# FCMalloc.OutOfMemory

What a call does when the `mmap` of its arena extension fails.

`ExtendBuffer` stores the result of `mmap` without a check, so a failed extension looks
like a pool at `MAP_FAILED`, and the carving loop writes its headers there: whatever the
state, a call that needs an extension either does not return or has carved new blocks
(`malloc_carves`). No such call leaves the state as it was.
-/

namespace FCMalloc.OutOfMemory

open ByteMemory GlobalMemoryManager

/-- `malloc(size)` by the holder of `lp` gets as far as the extension of its arena. -/
structure NeedsExtension (c : Config) (main : Bool) (lp : LocalMemoryManager) (s : Process)
    (size : Nat) : Prop where
  size_ne : size ≠ 0
  own : (lp.mallocOwn s.store size).1 = 0
  pool : (CommonMemoryPool.malloc c (lp.mallocOwn s.store size).2 lp.mallocList lp.core size).1 = 0
  arena : s.mm.needsExtension c (c.arena main lp.core)
    (mmapSize c size (c.batch (sizeClass size))) = true

/-- No header written, the arenas and every class list as before. -/
structure Unchanged (s s' : Process) : Prop where
  carved : s'.carved = s.carved
  pools : s'.mm.pools = s.mm.pools
  sizes : s'.mm.sizes = s.mm.sizes
  offsets : s'.mm.offsets = s.mm.offsets
  lists : s'.store.lists = s.store.lists

/-- `malloc(size)` whose `mmap` fails returns `nullptr` with `ENOMEM` and changes nothing. -/
def MallocAtomic (c : Config) (main : Bool) (lp : LocalMemoryManager) (s : Process) (size : Nat)
    (asked : List Nat) : Prop :=
  ∃ s', Api.malloc c main lp s size mapFailed asked = some (0, s') ∧ s'.store.errno = enomem ∧
    Unchanged s s'

/-- `realloc(ptr, size)` whose `mmap` fails returns `nullptr` and leaves `ptr` as it was. -/
def ReallocAtomic (c : Config) (main : Bool) (lp : LocalMemoryManager) (s : Process)
    (ptr size : Nat) (asked : List Nat) : Prop :=
  ∃ s', Api.realloc c main lp s ptr size mapFailed asked = some (0, s') ∧ Unchanged s s' ∧
    ∀ x, ptr ≤ x → x < ptr + MemUtil.ptrToSize s.store.mem ptr → s'.store.mem x = s.store.mem x

section Carves

variable {c : Config} {main : Bool} {lp : LocalMemoryManager} {s s' : Process} {size p : Nat}
  {asked : List Nat}

/-- A loop that ends has kept what was carved and, unless it was done at once, added to it. -/
theorem carveLoop_extends {numCores core bodySize totalSize n fuel i : Nat} {t t' : Carving}
    (h : carveLoop numCores core bodySize totalSize n fuel i t = some t') :
    ∃ bs, t'.carved = t.carved ++ bs ∧ (i < n → bs ≠ []) := by
  induction fuel generalizing i t with
  | zero => exact absurd h (by simp [carveLoop])
  | succ fuel ih =>
      rw [carveLoop] at h
      split at h
      · obtain ⟨bs, hbs, -⟩ := ih h
        refine ⟨⟨t.buffer, core, bodySize⟩ :: bs, ?_, fun _ => List.cons_ne_nil _ _⟩
        rw [hbs, carveOne, List.append_assoc, List.singleton_append]
      case isFalse hdone =>
        obtain rfl := Option.some.inj h
        exact ⟨[], by simp, fun hi => absurd hi hdone⟩

/-- A batch of at least one block that is carved writes a header. -/
theorem carve_ne_nil {mem : Memory} {core n : Nat}
    {r : MemoryLinkedListResult × Memory × List Block} (h : carve c mem core size n p = some r)
    (hn : 0 < n) : r.2.2 ≠ [] := by
  unfold carve at h
  obtain ⟨t, ht, rfl⟩ := Option.map_eq_some_iff.mp h
  obtain ⟨bs, hbs, hne⟩ := carveLoop_extends ht
  simpa [hbs] using hne hn

/-- Only a request for at least one block extends an arena. -/
theorem NeedsExtension.batch_pos (h : NeedsExtension c main lp s size) :
    0 < c.batch (sizeClass size) := Process.batch_pos_of_needsExtension h.arena

/-- A call that needs an extension and returns has carved, whatever `mmap` returned. -/
theorem malloc_carves {ret : Nat} (h : NeedsExtension c main lp s size)
    (hrun : lp.malloc c main s size ret asked = some (p, s')) :
    ∃ bs, bs ≠ [] ∧ s'.carved = s.carved ++ bs := by
  rw [LocalMemoryManager.malloc, if_neg h.size_ne] at hrun
  simp only [h.own, h.pool, ne_eq, not_true_eq_false, if_false] at hrun
  obtain ⟨s₁, hallocate, hlast⟩ := Option.map_eq_some_iff.mp hrun
  obtain ⟨⟨served, mm, touched⟩, henter, hfinish⟩ := Option.bind_eq_some_iff.mp hallocate
  obtain rfl := MmapManager.reports_of_enter henter h.arena
  obtain ⟨store, -, hcarve⟩ := Option.bind_eq_some_iff.mp hfinish
  obtain ⟨r, hr, rfl⟩ := Option.map_eq_some_iff.mp hcarve
  obtain rfl := congrArg Prod.snd hlast
  exact ⟨r.2.2, carve_ne_nil hr h.batch_pos, rfl⟩

theorem not_mallocAtomic (h : NeedsExtension c main lp s size) :
    ¬ MallocAtomic c main lp s size asked := by
  rintro ⟨s', hrun, -, hsame⟩
  rw [Api.malloc, if_neg h.size_ne] at hrun
  obtain ⟨bs, hne, hcarved⟩ := malloc_carves h hrun
  exact hne (by simpa [hsame.carved] using hcarved)

/-- A `realloc` that grows the block makes the same call. -/
theorem not_reallocAtomic {ptr : Nat} (h : NeedsExtension c main lp s size) (hptr : ptr ≠ 0)
    (hgrow : MemUtil.ptrToSize s.store.mem ptr < size) : ¬ ReallocAtomic c main lp s ptr size asked := by
  rintro ⟨s', hrun, hsame, -⟩
  rw [Api.realloc, if_neg hptr, LocalMemoryManager.realloc, if_neg hptr] at hrun
  dsimp only at hrun
  rw [if_neg (Nat.not_le.mpr hgrow)] at hrun
  obtain ⟨⟨q, s₁⟩, hmalloc, hend⟩ := Option.map_eq_some_iff.mp hrun
  obtain ⟨bs, hne, hcarved⟩ := malloc_carves h hmalloc
  have hkept : s'.carved = s₁.carved := by
    dsimp only at hend
    split at hend <;> obtain rfl := congrArg Prod.snd hend <;> rfl
  exact hne (by simpa [← hkept, hsame.carved] using hcarved)

end Carves

/-- **A failed `mmap` is never atomic**: in every state, no `malloc` that needs an
extension whose `mmap` fails returns `nullptr` with the state unchanged, and no growing
`realloc` does, whatever the report asks for. -/
theorem mmap_failure_not_atomic (c : Config) (main : Bool) (lp : LocalMemoryManager) (s : Process)
    (size : Nat) (h : NeedsExtension c main lp s size) (asked : List Nat) :
    ¬ MallocAtomic c main lp s size asked ∧
      ∀ ptr, ptr ≠ 0 → MemUtil.ptrToSize s.store.mem ptr < size →
        ¬ ReallocAtomic c main lp s ptr size asked :=
  ⟨not_mallocAtomic h, fun _ hptr hgrow => not_reallocAtomic h hptr hgrow⟩

/-- One core, default table, and `FCM_MAIN_MEM_MAX=1`: a 1 MB pool for the main thread. -/
def smallMain : Config :=
  mainInit 1 4096 4 .setDefault none (some 1) none MmapManager.one_core MmapManager.four_slots
    MmapManager.page_4096

/-- The process once its main thread has leased manager 0. -/
def smallMainStarted : Process :=
  let s := Process.init smallMain MmapManager.oneCoreBase (fun _ => 0)
  { s with g := (allocLocalMemoryManager smallMain s.g 0).2 }

theorem smallMain_needsExtension :
    NeedsExtension smallMain true (managerPools smallMain 0) smallMainStarted 0x200000 :=
  ⟨by decide, by decide +kernel, by decide +kernel, by decide +kernel⟩

theorem smallMain_returns : (Api.malloc smallMain true (managerPools smallMain 0) smallMainStarted
    0x200000 mapFailed []).isSome = true := by decide +kernel

/-- The 2 MB request of that main thread is not atomic. -/
theorem mmap_failure_not_atomic_smallMain :
    ¬ MallocAtomic smallMain true (managerPools smallMain 0) smallMainStarted 0x200000 [] :=
  (mmap_failure_not_atomic smallMain true (managerPools smallMain 0) smallMainStarted 0x200000
    smallMain_needsExtension []).1

/-- It returns a pointer that is not null, with a header carved and the pool of the
main thread's arena at `MAP_FAILED`. -/
theorem smallMain_carves : ∃ p s',
    Api.malloc smallMain true (managerPools smallMain 0) smallMainStarted 0x200000 mapFailed [] =
      some (p, s') ∧ p ≠ 0 ∧ s'.carved.length = 1 ∧ s'.mm.pools 1 = mapFailed ∧
    ¬ MallocAtomic smallMain true (managerPools smallMain 0) smallMainStarted 0x200000 [] :=
  ⟨_, _, (Option.some_get smallMain_returns).symm, by decide +kernel, by decide +kernel,
    by decide +kernel, not_mallocAtomic smallMain_needsExtension⟩

end FCMalloc.OutOfMemory
