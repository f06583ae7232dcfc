import FCMalloc.MmapManager
import Mathlib.Data.List.Count
import Mathlib.Data.List.Nodup
import Mathlib.Data.Nat.Find

/-!
# FCMalloc.FirstTouch

What the loop of `FirstTouch` does, for every pool size.

The counter takes the values `u32 (k * pageSize)`, so the loop ends at the first
`k` where that value reaches the pool size (`firstTouchLoop_stop`) and never ends
if there is none (`firstTouchLoop_run`). A pool of `2 ^ 32` bytes or more is out
of the counter's reach; below that the loop visits each page once.
-/

namespace FCMalloc.MmapManager

variable {p mmapSize pageSize : Nat}

/-- The loop ends at the first round whose counter reaches the pool size. -/
theorem firstTouchLoop_stop {k fuel of : Nat}
    (hbelow : ∀ j < k, u32 (of + j * pageSize) < mmapSize)
    (hstop : mmapSize ≤ u32 (of + k * pageSize)) (hfuel : k < fuel) :
    firstTouchLoop p mmapSize pageSize fuel (u32 of) =
      some ((List.range k).map fun j => u64 (p + u32 (of + j * pageSize))) := by
  induction fuel generalizing k of with
  | zero => omega
  | succ fuel ih =>
      rw [firstTouchLoop]
      cases k with
      | zero =>
          have hdone : ¬ u32 of < mmapSize := by simpa using hstop
          rw [if_neg hdone]
          rfl
      | succ k =>
          have hcur : u32 of < mmapSize := by simpa using hbelow 0 (Nat.succ_pos k)
          have hnext : u32 (u32 of + pageSize) = u32 (of + pageSize) := by simp [u32]
          have hshift : ∀ j, of + pageSize + j * pageSize = of + (j + 1) * pageSize := fun j => by
            rw [Nat.succ_mul]
            omega
          have hbelow' : ∀ j < k, u32 (of + pageSize + j * pageSize) < mmapSize := fun j hj => by
            rw [hshift]
            exact hbelow (j + 1) (by omega)
          have hstop' : mmapSize ≤ u32 (of + pageSize + k * pageSize) := by
            rw [hshift]
            exact hstop
          have htail := ih hbelow' hstop' (by omega)
          rw [if_pos hcur, hnext, htail, Option.map_some, List.range_succ_eq_map, List.map_cons,
            List.map_map]
          simp only [Function.comp_def, hshift, Nat.zero_mul, Nat.add_zero]

/-- A loop whose counter stays below the pool size has not ended. -/
theorem firstTouchLoop_run {fuel of : Nat}
    (hbelow : ∀ j < fuel, u32 (of + j * pageSize) < mmapSize) :
    firstTouchLoop p mmapSize pageSize fuel (u32 of) = none := by
  induction fuel generalizing of with
  | zero => rfl
  | succ fuel ih =>
      have hcur : u32 of < mmapSize := by simpa using hbelow 0 (Nat.succ_pos fuel)
      have hnext : u32 (u32 of + pageSize) = u32 (of + pageSize) := by simp [u32]
      have hbelow' : ∀ j < fuel, u32 (of + pageSize + j * pageSize) < mmapSize := fun j hj => by
        have hlater := hbelow (j + 1) (by omega)
        rwa [Nat.succ_mul, Nat.add_comm (j * pageSize), ← Nat.add_assoc] at hlater
      rw [firstTouchLoop, if_pos hcur, hnext, ih hbelow', Option.map_none]

/-- **`2 ^ 32` tests decide termination**: the counter is periodic, so a loop that
ends at all ends within them, with the same writes. -/
theorem firstTouchLoop_complete {fuel : Nat} {w : List Nat}
    (h : firstTouchLoop p mmapSize pageSize fuel 0 = some w) :
    firstTouchLoop p mmapSize pageSize (2 ^ 32) 0 = some w := by
  have hstops : ∃ k, mmapSize ≤ u32 (0 + k * pageSize) := by
    by_contra hnone
    have hbelow : ∀ j < fuel, u32 (0 + j * pageSize) < mmapSize := fun j _ =>
      Nat.lt_of_not_le fun hle => hnone ⟨j, hle⟩
    rw [show 0 = u32 0 from rfl, firstTouchLoop_run hbelow] at h
    exact absurd h (by simp)
  -- the first stopping round `k`, below the period of the counter
  obtain ⟨k, hstop, hbelow⟩ : ∃ k, mmapSize ≤ u32 (0 + k * pageSize) ∧
      ∀ j < k, u32 (0 + j * pageSize) < mmapSize :=
    ⟨Nat.find hstops, Nat.find_spec hstops, fun j hj => Nat.lt_of_not_le (Nat.find_min hstops hj)⟩
  have hperiod : k < 2 ^ 32 := by
    by_contra hge
    have hmod := hbelow (k % 2 ^ 32) (by
      have := Nat.mod_lt k (show 0 < 2 ^ 32 by decide)
      omega)
    have heq : u32 (0 + k % 2 ^ 32 * pageSize) = u32 (0 + k * pageSize) := by
      simp [u32, Nat.mul_mod]
    omega
  have hfull := firstTouchLoop_stop (p := p) hbelow hstop hperiod
  have hfuel : k < fuel := by
    by_contra hle
    rw [show 0 = u32 0 from rfl, firstTouchLoop_run fun j hj => hbelow j (by omega)] at h
    exact absurd h (by simp)
  have hshort := firstTouchLoop_stop (p := p) hbelow hstop hfuel
  rw [show u32 0 = 0 from rfl] at hfull hshort
  rw [hfull, ← hshort, h]

/-- A list of single-byte writes that hits each page of the pool `[p, p + mmapSize)`
exactly once, in one round per page, and nothing outside the pool. -/
structure TouchesEachPage (p mmapSize pageSize : Nat) (w : List Nat) : Prop where
  rounds : w.length = mmapSize / pageSize
  inside : ∀ a ∈ w, p ≤ a ∧ a < p + mmapSize
  once : ∀ j < mmapSize / pageSize,
    w.countP (fun a => p + j * pageSize ≤ a ∧ a < p + (j + 1) * pageSize) = 1

/-- The addresses `p, p + pageSize, …` touch each page once. -/
theorem touchesEachPage_stride {n : Nat} (hpage : 0 < pageSize) :
    TouchesEachPage p (n * pageSize) pageSize
      ((List.range n).map fun j => p + j * pageSize) where
  rounds := by rw [List.length_map, List.length_range, Nat.mul_div_cancel _ hpage]
  inside a ha := by
    obtain ⟨j, hj, rfl⟩ := List.mem_map.mp ha
    exact ⟨Nat.le_add_right _ _, Nat.add_lt_add_left
      (Nat.mul_lt_mul_of_pos_right (List.mem_range.mp hj) hpage) p⟩
  once j hj := by
    rw [Nat.mul_div_cancel _ hpage] at hj
    have hpage_iff : ∀ i, (p + j * pageSize ≤ p + i * pageSize ∧
        p + i * pageSize < p + (j + 1) * pageSize) ↔ i = j := by
      intro i
      rw [Nat.add_le_add_iff_left, Nat.add_lt_add_iff_left, Nat.mul_le_mul_right_iff hpage,
        Nat.mul_lt_mul_right hpage]
      omega
    have hcount : (List.range n).count j = 1 :=
      List.count_eq_one_of_mem List.nodup_range (List.mem_range.mpr hj)
    rw [List.countP_map]
    refine Eq.trans (List.countP_congr fun i _ => ?_) hcount
    simp only [Function.comp_apply, hpage_iff, decide_eq_true_iff, beq_iff_eq]

/-- Below `2 ^ 32` bytes the writes are those of one pass over the pages. -/
theorem firstTouchLoop_pages {n : Nat} (hpage : 0 < pageSize) (hsmall : n * pageSize < 2 ^ 32)
    (hspace : p + n * pageSize ≤ 2 ^ 64) :
    firstTouchLoop p (n * pageSize) pageSize (2 ^ 32) 0 =
      some ((List.range n).map fun j => p + j * pageSize) := by
  have hround : ∀ j ≤ n, u32 (0 + j * pageSize) = j * pageSize := fun j hj => by
    have := Nat.mul_le_mul_right pageSize hj
    rw [Nat.zero_add, u32, Nat.mod_eq_of_lt (by omega)]
  have hlt : ∀ j < n, j * pageSize < n * pageSize := fun j hj =>
    Nat.mul_lt_mul_of_pos_right hj hpage
  have hbelow : ∀ j < n, u32 (0 + j * pageSize) < n * pageSize := fun j hj => by
    rw [hround j (Nat.le_of_lt hj)]
    exact hlt j hj
  have hfuel : n < 2 ^ 32 := Nat.lt_of_le_of_lt (Nat.le_mul_of_pos_right n hpage) hsmall
  have hstop := firstTouchLoop_stop (p := p) hbelow (by rw [hround n (Nat.le_refl n)]) hfuel
  rw [show u32 0 = 0 from rfl] at hstop
  rw [hstop]
  congr 1
  refine List.map_congr_left fun j hj => ?_
  have hj' := List.mem_range.mp hj
  have := hlt j hj'
  rw [hround j (Nat.le_of_lt hj'), u64_of_lt (by omega)]

/-- Every byte the loop clears lies in the pool. -/
theorem firstTouchLoop_inside {fuel of : Nat} {w : List Nat} (hspace : p + mmapSize ≤ 2 ^ 64)
    (h : firstTouchLoop p mmapSize pageSize fuel of = some w) :
    ∀ a ∈ w, a ∈ (⟨p, mmapSize⟩ : Extent) := by
  induction fuel generalizing of w with
  | zero => exact absurd h (by simp [firstTouchLoop])
  | succ fuel ih =>
      rw [firstTouchLoop] at h
      by_cases hlt : of < mmapSize
      · rw [if_pos hlt] at h
        obtain ⟨w', hw', rfl⟩ := Option.map_eq_some_iff.mp h
        intro a ha
        rcases List.mem_cons.mp ha with rfl | ha
        · rw [u64_of_lt (by omega)]
          exact ⟨Nat.le_add_right p of, Nat.add_lt_add_left hlt p⟩
        · exact ih hw' a ha
      · rw [if_neg hlt] at h
        obtain rfl := Option.some.inj h
        simp

variable {c : Config} {main : Bool} {mm : MmapManager} {core : Nat}

/-- A pool of `2 ^ 32` bytes or more is never finished. -/
theorem firstTouch_diverges (hbig : 2 ^ 32 ≤ mm.sizes (c.arena main core)) :
    firstTouch c main mm core = none := by
  unfold firstTouch
  have hbelow : ∀ j < 2 ^ 32, u32 (0 + j * c.pageSize) < mm.sizes (c.arena main core) := fun _ _ =>
    Nat.lt_of_lt_of_le (Nat.mod_lt _ (by decide)) hbig
  exact firstTouchLoop_run hbelow

/-- A smaller pool, a whole number of pages inside the address space, is finished after
one write for each page. -/
theorem firstTouch_returns (hdvd : c.pageSize ∣ mm.sizes (c.arena main core))
    (hspace : mm.pools (c.arena main core) + mm.sizes (c.arena main core) ≤ 2 ^ 64)
    (hsmall : mm.sizes (c.arena main core) < 2 ^ 32) :
    ∃ w, firstTouch c main mm core = some w ∧
      TouchesEachPage (mm.pools (c.arena main core)) (mm.sizes (c.arena main core)) c.pageSize w := by
  obtain ⟨n, hn⟩ := hdvd
  rw [Nat.mul_comm] at hn
  rw [hn] at hsmall hspace ⊢
  refine ⟨_, ?_, touchesEachPage_stride c.pageSize_pos⟩
  unfold firstTouch
  dsimp only
  rw [hn]
  exact firstTouchLoop_pages c.pageSize_pos hsmall hspace

/-- The guarded call comes back from an arena that is touched or smaller than that, and
from no other. -/
theorem touchOnce_returns_iff (hdvd : c.pageSize ∣ mm.sizes (c.arena main core))
    (hspace : mm.pools (c.arena main core) + mm.sizes (c.arena main core) ≤ 2 ^ 64) :
    (∃ touch, touchOnce c main mm (c.arena main core) = some touch) ↔
      mm.firstTouchFlag (c.arena main core) = true ∨ mm.sizes (c.arena main core) < 2 ^ 32 := by
  have harena := c.arena_arena main core
  unfold touchOnce
  cases mm.firstTouchFlag (c.arena main core) with
  | true => simp
  | false =>
      by_cases hsmall : mm.sizes (c.arena main core) < 2 ^ 32
      · rw [← harena] at hdvd hspace hsmall
        obtain ⟨w, hw, -⟩ := firstTouch_returns hdvd hspace hsmall
        rw [harena] at hsmall
        simp only [Bool.not_false, if_true, hw, Option.map_some]
        exact ⟨fun _ => Or.inr hsmall, fun _ => ⟨_, rfl⟩⟩
      · have hnone : firstTouch c main mm (c.arena main core) = none :=
          firstTouch_diverges (by rw [harena]; exact Nat.le_of_not_lt hsmall)
        simp only [Bool.not_false, if_true, hnone, Option.map_none]
        constructor
        · intro ⟨_, hsome⟩
          exact absurd hsome (by simp)
        · intro h
          exact absurd (h.resolve_left Bool.false_ne_true) hsmall

/-- **`FirstTouch` covers its pool exactly when the pool is smaller than 4 GB**:
for every page size and every pool that is a whole number of pages inside the
address space, the loop ends after one round per page, touching each page once
and nothing else, if and only if the pool has fewer than `2 ^ 32` bytes. -/
theorem firstTouch_covers_iff (c : Config) (main : Bool) (mm : MmapManager) (core : Nat)
    (hdvd : c.pageSize ∣ mm.sizes (c.arena main core))
    (hspace : mm.pools (c.arena main core) + mm.sizes (c.arena main core) ≤ 2 ^ 64) :
    (∃ w, firstTouch c main mm core = some w ∧
      TouchesEachPage (mm.pools (c.arena main core)) (mm.sizes (c.arena main core)) c.pageSize w) ↔
    mm.sizes (c.arena main core) < 2 ^ 32 := by
  constructor
  · rintro ⟨w, hw, -⟩
    by_contra hbig
    rw [firstTouch_diverges (by omega)] at hw
    exact absurd hw (by simp)
  · exact firstTouch_returns hdvd hspace

/-- One core, 4 KB pages and `FCM_MAIN_MEM_MAX=4096`. -/
def mainMem4096 : Config :=
  mainInit 1 4096 4 .setDefault none (some 4096) none one_core four_slots page_4096

/-- With the default settings the main thread's 32 MB pool is covered. -/
theorem firstTouch_covers_default : ∃ w,
    firstTouch oneCore true (init oneCore oneCoreBase) 0 = some w ∧
      TouchesEachPage (oneCoreBase 1) (32 * 1024 * 1024) 4096 w :=
  (firstTouch_covers_iff oneCore true (init oneCore oneCoreBase) 0
    (by decide) (by decide)).mpr (by decide)

/-- With `FCM_MAIN_MEM_MAX=4096` the main thread's pool has `2 ^ 32` bytes, a whole
number of 4 KB pages well below 1 TB, and `FirstTouch` never returns from it. -/
theorem firstTouch_mainMem4096 :
    (init mainMem4096 oneCoreBase).sizes (mainMem4096.arena true 0) = 2 ^ 32 ∧
      mainMem4096.pageSize = 2 ^ 12 ∧
      ¬ ∃ w, firstTouch mainMem4096 true (init mainMem4096 oneCoreBase) 0 = some w ∧
        TouchesEachPage (oneCoreBase 1) (2 ^ 32) 4096 w := by
  refine ⟨by decide, by decide, ?_⟩
  rintro ⟨w, hw, -⟩
  rw [firstTouch_diverges (by decide)] at hw
  exact absurd hw (by simp)

end FCMalloc.MmapManager
