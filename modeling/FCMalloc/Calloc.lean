import FCMalloc.ClzIndependence
import FCMalloc.EndToEnd

/-!
# FCMalloc.Calloc

`calloc` in every state of every run.

The product of the two factors is taken modulo `2 ^ 64` before `malloc` sees it. As long as it
fits, the block is large enough for it and cleared, whatever was in it before. `calloc` never
asks `multCausesOverflow`: a product that does not fit is refused only where `malloc` refuses
the wrapped one, because that is zero or because its class has no batch.

All this is so whatever `__builtin_clz(0)` is, as long as nobody has asked for more than `2 ^ 31`
and at most `2 ^ 32` bytes (`Settled`). Otherwise a block of `2 ^ 32` bytes can be in a class of
larger ones, and `calloc` can return it for a product it has no room for.
-/

namespace FCMalloc

open ByteMemory GlobalMemoryManager LocalMemoryManager

/-- `calloc(nmemb, size)` never returns less than it was asked for: a block has room for the
product and starts with that many zeros, and a product that does not fit `size_t` gives
`nullptr` with all queues `q` as they were. `asked` is what `printf` asks for. -/
structure Callocs [ClzZero] (c : Config) (main : Bool) (m : LocalMemoryManager) (s : Process)
    (q : QueueId → List Nat) (nmemb size ret : Nat) (asked : List Nat) : Prop where
  enough : ∀ p s', Api.calloc c main m s nmemb size ret asked = some (p, s') → p ≠ 0 →
    nmemb * size ≤ MemUtil.ptrToSize s'.store.mem p ∧
      ∀ x < nmemb * size, s'.store.mem (p + x) = 0
  refused : 2 ^ 64 ≤ nmemb * size →
    ∃ s', Api.calloc c main m s nmemb size ret asked = some (0, s') ∧ s'.store.Represents q

/-- The product fits, or `malloc` refuses what it wraps to. -/
def CallocSafe [ClzZero] (c : Config) (main : Bool) (m : LocalMemoryManager) (s : Process)
    (q : QueueId → List Nat) (nmemb size : Nat) : Prop :=
  multCausesOverflow nmemb size = false ∨ u64 (nmemb * size) = 0 ∨
    (c.nPerSize (sizeClass (u64 (nmemb * size))) = 0 ∧
      Returns c main m s q (sizeClass (u64 (nmemb * size))))

section Api

variable {c : Config} {main : Bool} {m : LocalMemoryManager} {s : Process} {nmemb size ret : Nat}
  {asked : List Nat}

theorem calloc_of_zero (htotal : u64 (nmemb * size) = 0) :
    Api.calloc c main m s nmemb size ret asked = some (0, s) := by
  unfold Api.calloc
  split
  · rfl
  · dsimp only
    rw [Api.malloc, if_pos htotal]
    rfl

theorem calloc_of_ne (htotal : u64 (nmemb * size) ≠ 0) :
    Api.calloc c main m s nmemb size ret asked =
      (m.malloc c main s (u64 (nmemb * size)) ret asked).map fun r =>
        if r.1 ≠ 0 then (r.1, r.2.setMem (fill r.2.store.mem r.1 (u64 (nmemb * size)) 0)) else r := by
  have hne : ¬ (nmemb = 0 ∨ size = 0) := by
    intro hzero
    refine htotal ?_
    cases hzero with
    | inl hnmemb => rw [hnmemb, Nat.zero_mul, u64_of_lt (by decide)]
    | inr hsize => rw [hsize, Nat.mul_zero, u64_of_lt (by decide)]
  rw [Api.calloc, if_neg hne]
  dsimp only
  rw [Api.malloc, if_neg htotal]

end Api

namespace HeapInv

variable {c : Config} {main : Bool} {s s' : Process} {q q' : QueueId → List Nat}
  {j nmemb size ret total p : Nat} {asked : List Nat}

/-- The block `Malloc` has returned is large enough, and `memset` clears it. -/
theorem cleared (htotal : total < 2 ^ 64) (hp : p ≠ 0)
    (hmallocs : Mallocs c (sizeClass total) s q p s' q') :
    let s₂ := s'.setMem (fill s'.store.mem p total 0)
    total ≤ MemUtil.ptrToSize s₂.store.mem p ∧ ∀ x < total, s₂.store.mem (p + x) = 0 := by
  obtain ⟨b, hb, rfl, hsize, -⟩ := hmallocs.taken hp
  have hfits : total ≤ b.size := by
    rw [hsize, sizeClass_val]
    exact le_two_pow_logarithm2 htotal
  have hcleared : HeapInv c (s'.setMem (fill s'.store.mem b.body total 0)) q' :=
    hmallocs.heap.setMem_body hb fun x hx => fill_of_outside (by omega)
  refine ⟨?_, fun x hx => ?_⟩
  · rw [hcleared.ptrToSize hb]
    exact hfits
  · exact if_pos ⟨Nat.le_add_right _ _, Nat.add_lt_add_left hx _⟩

/-- A product that fits: whatever comes back is large enough and zero. -/
theorem callocs_of_fits (h : HeapInv c s q) (hj : j < managerN c) (hfits : c.TableFits)
    (hforce : c.forceMmapFlag = true) (hsized : Untouched c s.mm)
    (hfresh : FreshMmap c main (managerPools c j) s (u64 (nmemb * size)) ret)
    (hproduct : nmemb * size < 2 ^ 64) :
    Callocs c main (managerPools c j) s q nmemb size ret asked := by
  refine ⟨fun p s₂ hcalloc hp => ?_, fun hover => absurd hproduct (Nat.not_lt.mpr hover)⟩
  rw [u64_of_lt hproduct] at hfresh
  by_cases htotal : nmemb * size = 0
  case pos =>
    rw [calloc_of_zero (by rw [htotal, u64_of_lt (by decide)])] at hcalloc
    exact absurd (congrArg Prod.fst (Option.some.inj hcalloc)).symm hp
  rw [calloc_of_ne (by rwa [u64_of_lt hproduct]), u64_of_lt hproduct] at hcalloc
  obtain ⟨r, hsome, -⟩ := Option.map_eq_some_iff.mp hcalloc
  obtain ⟨hreturns, hreports⟩ :=
    (h.malloc_returns_iff hj htotal hfits hforce hsized hfresh).mp ⟨r.1, r.2, hsome⟩
  obtain ⟨p', s', q', hmalloc, hmallocs, -⟩ :=
    h.malloc_kept hj htotal hfits hforce hsized hfresh hreturns hreports
  rw [hmalloc, Option.map_some] at hcalloc
  by_cases hnull : p' = 0
  · rw [if_neg (not_not.mpr hnull)] at hcalloc
    have heq := congrArg Prod.fst (Option.some.inj hcalloc)
    exact absurd (heq.symm.trans hnull) hp
  · rw [if_pos hnull] at hcalloc
    obtain ⟨rfl, rfl⟩ := Prod.mk.inj (Option.some.inj hcalloc)
    exact cleared hproduct hnull hmallocs

/-- A product that does not fit, and that `malloc` refuses. -/
theorem callocs_of_refused {s' : Process}
    (hcalloc : Api.calloc c main (managerPools c j) s nmemb size ret asked = some (0, s'))
    (hqueues : s'.store.Represents q) :
    Callocs c main (managerPools c j) s q nmemb size ret asked := by
  refine ⟨fun p s₂ hsome hp => ?_, fun _ => ⟨s', hcalloc, hqueues⟩⟩
  rw [hcalloc] at hsome
  exact absurd (congrArg Prod.fst (Option.some.inj hsome)).symm hp

theorem callocs_iff (h : HeapInv c s q) (hj : j < managerN c) (hfits : c.TableFits)
    (hforce : c.forceMmapFlag = true) (hsized : Untouched c s.mm)
    (hfresh : FreshMmap c main (managerPools c j) s (u64 (nmemb * size)) ret) :
    Callocs c main (managerPools c j) s q nmemb size ret asked ↔
      CallocSafe c main (managerPools c j) s q nmemb size := by
  by_cases hproduct : nmemb * size < 2 ^ 64
  case pos =>
    refine ⟨fun _ => Or.inl ?_, fun _ => h.callocs_of_fits hj hfits hforce hsized hfresh hproduct⟩
    rw [Bool.eq_false_iff, Ne, multCausesOverflow_iff]
    exact Nat.not_le.mpr hproduct
  have hover : 2 ^ 64 ≤ nmemb * size := Nat.le_of_not_lt hproduct
  have hwraps : multCausesOverflow nmemb size ≠ false := by
    rw [multCausesOverflow_iff.mpr hover]
    decide
  constructor
  · intro hcallocs
    obtain ⟨s₂, hcalloc, -⟩ := hcallocs.refused hover
    by_cases htotal : u64 (nmemb * size) = 0
    · exact Or.inr (Or.inl htotal)
    rw [calloc_of_ne htotal] at hcalloc
    obtain ⟨r, hsome, -⟩ := Option.map_eq_some_iff.mp hcalloc
    obtain ⟨hreturns, hreports⟩ :=
      (h.malloc_returns_iff hj htotal hfits hforce hsized hfresh).mp ⟨r.1, r.2, hsome⟩
    obtain ⟨p, s', q', hmalloc, -, hway⟩ :=
      h.malloc_kept hj htotal hfits hforce hsized hfresh hreturns hreports
    rw [hmalloc, Option.map_some] at hcalloc
    cases hway with
    | inl hobtains =>
        rw [if_pos hobtains.2] at hcalloc
        exact absurd (congrArg Prod.fst (Option.some.inj hcalloc)) hobtains.2
    | inr hrefused => exact Or.inr (Or.inr ⟨hrefused.1, hreturns⟩)
  · intro hsafe
    by_cases htotal : u64 (nmemb * size) = 0
    · exact callocs_of_refused (calloc_of_zero htotal) h.sound.toRep.represents
    obtain ⟨hzero, hreturns⟩ := (hsafe.resolve_left hwraps).resolve_left htotal
    -- without a batch there is no extension and no report
    have hreports : Reports c main (managerPools c j) s q (u64 (nmemb * size)) asked := by
      intro hext
      have hbatch := Process.batch_pos_of_needsExtension hext.arena
      rw [(hfits.batch_eq _).1, hzero] at hbatch
      exact absurd hbatch (by decide)
    obtain ⟨p, s', q', hmalloc, hmallocs, hway⟩ :=
      h.malloc_kept hj htotal hfits hforce hsized hfresh hreturns hreports
    cases hway with
    | inl hobtains => omega
    | inr hrefused =>
        obtain ⟨-, rfl, -, rfl, -, -⟩ := hrefused
        refine callocs_of_refused ?_ hmallocs.heap.sound.toRep.represents
        rw [calloc_of_ne htotal, hmalloc]
        rfl

end HeapInv

section Congr

variable [ClzZero] {c : Config} {main : Bool} {m : LocalMemoryManager} {s : Process}
  {q : QueueId → List Nat} {nmemb size ret : Nat} {asked : List Nat}

theorem FreshMmap_congr (h : sizeClass size = @sizeClass clzNoted size) :
    FreshMmap c main m s size ret ↔ @FreshMmap clzNoted c main m s size ret := by
  unfold FreshMmap
  rw [h]

theorem Callocs_congr (h : sizeClass (u64 (nmemb * size)) = @sizeClass clzNoted (u64 (nmemb * size)))
    (hasked : ∀ n ∈ asked, sizeClass n = @sizeClass clzNoted n) :
    Callocs c main m s q nmemb size ret asked ↔
      @Callocs clzNoted c main m s q nmemb size ret asked := by
  have hcalloc : Api.calloc c main m s nmemb size ret asked =
      @Api.calloc clzNoted c main m s nmemb size ret asked := Api.calloc_congr h hasked
  constructor
  · rintro ⟨henough, hrefused⟩
    rw [hcalloc] at henough hrefused
    exact @Callocs.mk clzNoted _ _ _ _ _ _ _ _ _ henough hrefused
  · rintro ⟨henough, hrefused⟩
    rw [← hcalloc] at henough hrefused
    exact ⟨henough, hrefused⟩

theorem CallocSafe_congr
    (h : sizeClass (u64 (nmemb * size)) = @sizeClass clzNoted (u64 (nmemb * size))) :
    CallocSafe c main m s q nmemb size ↔ @CallocSafe clzNoted c main m s q nmemb size := by
  unfold CallocSafe
  rw [h]

end Congr

namespace Machine

/-- **calloc**, in every state of every run: for the manager a thread has leased and every two
factors, the call never under-allocates if and only if the product fits, or wraps to a size
that `malloc` refuses. Unless `__builtin_clz(0)` is 32, nobody asks for more than `2 ^ 31` and at
most `2 ^ 32` bytes. -/
theorem calloc_callocs_iff [ClzZero] (c : Config) (base : Nat → Nat) (w : World) (hc : Setting c)
    (hbase : c.FreshBase base) (hrun : (system c base).Run (LegalSettled c) w) (t j : Nat)
    (hlp : (w.threads t).lp = some j) (nmemb size ret : Nat) (asked : List Nat)
    (hsettled : Settled (u64 (nmemb * size))) (hasked : ∀ n ∈ asked, Settled n)
    (hfresh : FreshMmap c (mainThread t) (managerPools c j) w.shared.heap (u64 (nmemb * size)) ret) :
    ∃ q, w.shared.heap.store.Represents q ∧
      (Callocs c (mainThread t) (managerPools c j) w.shared.heap q nmemb size ret asked ↔
        CallocSafe c (mainThread t) (managerPools c j) w.shared.heap q nmemb size) := by
  have hnoted := (run_iff hc hbase).mp hrun
  obtain ⟨hinv, hsized⟩ := untouched_run hc hbase (hnoted.mono fun _ _ h => h.1)
  obtain ⟨q, hq⟩ := hinv.owned
  refine ⟨q, hq.heap.sound.toRep.represents, ?_⟩
  rw [Callocs_congr hsettled.sizeClass fun n hn => (hasked n hn).sizeClass,
    CallocSafe_congr hsettled.sizeClass]
  exact hq.heap.callocs_iff (hinv.leases t j hlp) hc.fits hc.force hsized
    ((FreshMmap_congr hsettled.sizeClass).mp hfresh)

/-- After `carveRun`, in a build where `clz(0)` is 31, `calloc(8, 8192)` gives nothing less. -/
theorem calloc_callocs_carveRun : ∃ (w : World) (q : QueueId → List Nat),
    w.shared.heap.store.Represents q ∧
      @Callocs ⟨31, by decide⟩ MmapManager.oneCore false (managerPools MmapManager.oneCore 0)
        w.shared.heap q 8 8192 0 [1024] := by
  obtain ⟨q, hq, hiff⟩ := @calloc_callocs_iff ⟨31, by decide⟩ MmapManager.oneCore
    MmapManager.oneCoreBase _ oneCore_setting (by decide) (@carveRun_settled ⟨31, by decide⟩) 1 0
    (by decide +kernel) 8 8192 0 [1024] (Or.inr (Or.inl (by decide)))
    (by simp [Settled]) (fun hneed => absurd hneed (by decide +kernel))
  exact ⟨_, q, hq, hiff.mpr (Or.inl (by decide))⟩

/-- After `carveRun` a product of `2 ^ 64 + 2` bytes is served as one of two bytes. -/
theorem not_callocs : ¬ ∀ (c : Config) (base : Nat → Nat) (w : World), Setting c →
    c.FreshBase base → (system c base).Run (Legal c) w → ∀ t j, (w.threads t).lp = some j →
    ∀ nmemb size ret asked, nmemb < 2 ^ 64 → size < 2 ^ 64 →
    FreshMmap c (mainThread t) (managerPools c j) w.shared.heap (u64 (nmemb * size)) ret →
    ∃ q, w.shared.heap.store.Represents q ∧
      Callocs c (mainThread t) (managerPools c j) w.shared.heap q nmemb size ret asked := by
  intro hall
  let w := Option.get _ carveRun_made
  have hbase : MmapManager.oneCore.FreshBase MmapManager.oneCoreBase := by decide
  have hlp : (w.threads 1).lp = some 0 := by decide +kernel
  have htotal : u64 ((2 ^ 63 + 1) * 2) = 2 := by decide
  have hfresh : FreshMmap MmapManager.oneCore (mainThread 1) (managerPools MmapManager.oneCore 0)
      w.shared.heap (u64 ((2 ^ 63 + 1) * 2)) 0 := fun hneed => absurd hneed (by decide +kernel)
  obtain ⟨q, -, hcallocs⟩ := hall _ _ w oneCore_setting hbase carveRun_legal 1 0 hlp
    (2 ^ 63 + 1) 2 0 [] (by decide) (by decide) hfresh
  obtain ⟨hinv, hsized⟩ := untouched_run oneCore_setting hbase carveRun_legal
  obtain ⟨s', hnull, -⟩ := hcallocs.refused (by decide)
  rw [calloc_of_ne (by rw [htotal]; decide), htotal] at hnull
  rw [htotal] at hfresh
  obtain ⟨q', hq'⟩ := hinv.owned
  have hquiet : Quiet MmapManager.oneCore (mainThread 1) (managerPools MmapManager.oneCore 0)
      w.shared.heap q' 2 [] := fun _ n hn => absurd hn List.not_mem_nil
  obtain ⟨p, s₂, q₂, hmalloc, -, hway⟩ := hq'.heap.malloc_runs (hinv.leases 1 0 hlp) (by decide)
    oneCore_setting.fits oneCore_setting.force hsized hfresh
    (fun _ _ _ => Or.inl (by decide +kernel)) hquiet
  rw [show mainThread 1 = false from rfl] at hnull
  rw [show mainThread 1 = false from rfl] at hmalloc
  cases hway with
  | inl hobtains =>
      rw [hmalloc, Option.map_some, if_pos hobtains.2.1] at hnull
      exact hobtains.2.1 (congrArg Prod.fst (Option.some.inj hnull))
  | inr hrefused => exact absurd hrefused.1 (by decide)

end Machine

end FCMalloc
