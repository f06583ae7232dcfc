import FCMalloc.FirstTouch

/-!
# FCMalloc.ArenaSafety

The arena invariant and what it gives for every run of `MmapManager::Malloc`.

`ArenaInv` says that each arena's current pool is one of the mappings obtained,
that the bump offset stays inside it, and that the unused tail of every arena is
apart from every range ever handed out. An extension preserves it because the new
mapping is fresh (`ArenaInv.extendBuffer`), serving a request because the request
fits (`ArenaInv.serve`). The second premise is what the code does not always
check: `Call.Fits` states when a call meets it, and the two runs at the end leave
it through the two ways there are.
-/

namespace FCMalloc

/-- What a successful `mmap` of `len` bytes promises: a page-aligned address inside
the address space, with nothing mapped there before. -/
def Config.Fresh (c : Config) (maps : List Extent) (ret : Nat) (len : Nat) : Prop :=
  ret ≠ mapFailed ∧ ret ≠ 0 ∧ c.pageSize ∣ ret ∧ ret + len < 2 ^ 64 ∧
    ∀ e ∈ maps, (⟨ret, len⟩ : Extent).Apart e

instance (c : Config) (maps : List Extent) (ret : Nat) (len : Nat) :
    Decidable (c.Fresh maps ret len) :=
  inferInstanceAs (Decidable (_ ∧ _ ∧ _ ∧ _ ∧ _))

/-- The mappings of `Init` are fresh, one after the other. -/
def Config.FreshBase (c : Config) (base : Nat → Nat) : Prop :=
  ∀ i < c.threadN, c.Fresh
    ((List.range i).map fun j => (⟨base j, MmapManager.initSize c j⟩ : Extent))
    (base i) (MmapManager.initSize c i)

instance (c : Config) (base : Nat → Nat) : Decidable (c.FreshBase base) :=
  inferInstanceAs (Decidable (∀ i < c.threadN, _))

namespace MmapManager

/-- The pool arena `a` currently serves from. -/
def region (mm : MmapManager) (a : Nat) : Extent := ⟨mm.pools a, mm.sizes a⟩

/-- The part of that pool not handed out yet. -/
def tail (mm : MmapManager) (a : Nat) : Extent :=
  ⟨mm.pools a + mm.offsets a, mm.sizes a - mm.offsets a⟩

/-- The arena invariant. -/
structure ArenaInv (c : Config) (mm : MmapManager) : Prop where
  offset_le : ∀ a < c.threadN, mm.offsets a ≤ mm.sizes a
  mapped : ∀ a < c.threadN, mm.region a ∈ mm.maps
  maps_bound : ∀ e ∈ mm.maps, 0 < e.base ∧ e.base + e.len < 2 ^ 64
  regions_apart : ∀ a < c.threadN, ∀ b < c.threadN, a ≠ b → (mm.region a).Apart (mm.region b)
  ranges_mapped : ∀ r ∈ mm.ranges, ∃ e ∈ mm.maps, r.Within e
  ranges_apart : mm.ranges.Pairwise Extent.Apart
  tail_apart : ∀ a < c.threadN, ∀ r ∈ mm.ranges, (mm.tail a).Apart r
  untouched : ∀ a < c.threadN, mm.firstTouchFlag a = false → mm.offsets a = 0

variable {c : Config} {mm mm' : MmapManager} {base : Nat → Nat} {a core size : Nat} {ret : Nat}

/-! ### The state after Init -/

/-- The arrays and mappings `Init` leaves behind. -/
theorem init_spec (hbase : c.FreshBase base) :
    (∀ i < c.threadN, (init c base).pools i = base i ∧ (init c base).sizes i = initSize c i) ∧
    (∀ i, (init c base).offsets i = 0) ∧ (∀ i, (init c base).firstTouchFlag i = false) ∧
    (∀ e, e ∈ (init c base).maps ↔ ∃ i < c.threadN, e = ⟨base i, initSize c i⟩) ∧
    (init c base).ranges = [] := by
  let P : Nat → MmapManager → Prop := fun k mm => k ≤ c.threadN →
    (∀ i < k, mm.pools i = base i ∧ mm.sizes i = initSize c i) ∧
    (∀ i, mm.offsets i = 0) ∧ (∀ i, mm.firstTouchFlag i = false) ∧
    (∀ e, e ∈ mm.maps ↔ ∃ i < k, e = ⟨base i, initSize c i⟩) ∧ mm.ranges = []
  have hloop : P c.threadN (forRange c.threadN (fun i mm => initArena c (base i) i mm) blank) := by
    refine forRange_invariant P ?_ ?_
    · intro _
      exact ⟨by simp, fun _ => rfl, fun _ => rfl, by simp [blank], rfl⟩
    · intro k hk mm hP _
      obtain ⟨harrays, hoff, hflag, hmaps, hranges⟩ := hP (by omega)
      refine ⟨fun i hi => ?_, fun i => ?_, hflag, fun e => ?_, hranges⟩
      · by_cases hik : i = k
        · subst hik
          simp [initArena]
        · have := harrays i (by omega)
          simpa [initArena, hik] using this
      · by_cases hik : i = k
        · subst hik
          simp [initArena]
        · simpa [initArena, hik] using hoff i
      · have hret : base k ≠ mapFailed := (hbase k hk).1
        simp only [initArena, recordMap, if_neg hret, List.mem_cons, hmaps]
        constructor
        · rintro (rfl | ⟨i, hi, rfl⟩)
          · exact ⟨k, Nat.lt_succ_self k, rfl⟩
          · exact ⟨i, by omega, rfl⟩
        · rintro ⟨i, hi, rfl⟩
          by_cases hik : i = k
          · subst hik
            exact Or.inl rfl
          · exact Or.inr ⟨i, by omega, rfl⟩
  exact hloop (Nat.le_refl _)

theorem init_region (hbase : c.FreshBase base) (ha : a < c.threadN) :
    (init c base).region a = ⟨base a, initSize c a⟩ := by
  obtain ⟨harrays, -⟩ := init_spec hbase
  rw [region, (harrays a ha).1, (harrays a ha).2]

theorem arenaInv_init (hbase : c.FreshBase base) : ArenaInv c (init c base) := by
  obtain ⟨-, hoff, -, hmaps, hranges⟩ := init_spec hbase
  have hapart : ∀ a < c.threadN, ∀ b < a,
      ((init c base).region a).Apart ((init c base).region b) := fun a ha b hb => by
    rw [init_region hbase ha, init_region hbase (by omega)]
    exact (hbase a ha).2.2.2.2 _ (List.mem_map.mpr ⟨b, List.mem_range.mpr hb, rfl⟩)
  constructor
  case offset_le =>
    intro a _
    rw [hoff a]
    exact Nat.zero_le _
  case mapped =>
    intro a ha
    rw [init_region hbase ha, hmaps]
    exact ⟨a, ha, rfl⟩
  case maps_bound =>
    intro e he
    obtain ⟨i, hi, rfl⟩ := (hmaps e).mp he
    obtain ⟨-, hne, -, hlt, -⟩ := hbase i hi
    exact ⟨Nat.pos_of_ne_zero hne, hlt⟩
  case regions_apart =>
    intro a ha b hb hab
    rcases Nat.lt_or_gt_of_ne hab with h | h
    · exact (hapart b hb a h).symm
    · exact hapart a ha b h
  case untouched => exact fun a _ _ => hoff a
  all_goals simp [hranges]

/-! ### Preservation -/

namespace ArenaInv

theorem pool_add_size_lt (h : ArenaInv c mm) (ha : a < c.threadN) :
    0 < mm.pools a ∧ mm.pools a + mm.sizes a < 2 ^ 64 :=
  h.maps_bound _ (h.mapped a ha)

theorem restSize_eq (h : ArenaInv c mm) (ha : a < c.threadN) :
    mm.restSize a = mm.sizes a - mm.offsets a := by
  have := (h.pool_add_size_lt ha).2
  exact restSize_of_le (h.offset_le a ha) (by omega)

/-- After an extension that the request fits, `Malloc` serves it. -/
theorem finishExtended_eq {size : Nat} (h : ArenaInv c mm) (ha : a < c.threadN)
    (hfit : size ≤ mm.sizes a - mm.offsets a) : mm.finishExtended a size = mm.serve a size := by
  rw [finishExtended, h.restSize_eq ha]
  exact if_neg (Nat.not_lt.mpr hfit)

theorem tail_within (h : ArenaInv c mm) (ha : a < c.threadN) :
    (mm.tail a).Within (mm.region a) := by
  have := h.offset_le a ha
  simp only [Extent.Within, tail, region]
  omega

/-- The invariant does not mention the first-touch flag of a touched arena. -/
theorem touchOnce {main : Bool} {touched : List Nat} (h : ArenaInv c mm)
    (ht : touchOnce c main mm core = some (mm', touched)) : ArenaInv c mm' := by
  obtain ⟨-, rfl, -⟩ | ⟨-, -, rfl⟩ := touchOnce_cases ht
  · exact h
  · refine { h with untouched := fun a ha hflag => h.untouched a ha ?_ }
    by_cases hac : a = core
    · subst hac
      simp at hflag
    · simpa [hac] using hflag

/-- After `touchOnce` the flag is set. -/
theorem flag_of_touchOnce {main : Bool} {touched : List Nat}
    (ht : MmapManager.touchOnce c main mm core = some (mm', touched)) :
    mm'.firstTouchFlag core = true := by
  obtain ⟨hflag, rfl, -⟩ | ⟨-, -, rfl⟩ := touchOnce_cases ht
  · exact hflag
  · simp

/-- **Extension.** A fresh mapping is apart from everything mapped before, so it
may become the arena's pool. -/
theorem extendBuffer (h : ArenaInv c mm) (ha : a < c.threadN)
    (hfresh : c.Fresh mm.maps ret (align size c.pageSize)) :
    ArenaInv c (mm.extendBuffer c a size ret) := by
  obtain ⟨hnf, hne, -, hlt, hapart⟩ := hfresh
  have hmaps : (mm.extendBuffer c a size ret).maps =
      ⟨ret, align size c.pageSize⟩ :: mm.maps := if_neg hnf
  have hself : (mm.extendBuffer c a size ret).region a = ⟨ret, align size c.pageSize⟩ := by
    simp [region, MmapManager.extendBuffer]
  have hother : ∀ b, b ≠ a → (mm.extendBuffer c a size ret).region b = mm.region b :=
    fun b hb => by simp [region, MmapManager.extendBuffer, hb]
  have htail : ∀ b, b ≠ a → (mm.extendBuffer c a size ret).tail b = mm.tail b :=
    fun b hb => by simp [tail, MmapManager.extendBuffer, hb]
  have hnew : ∀ b < c.threadN, (⟨ret, align size c.pageSize⟩ : Extent).Apart (mm.region b) :=
    fun b hb => hapart _ (h.mapped b hb)
  constructor
  case offset_le =>
    intro b hb
    by_cases hba : b = a
    · subst hba
      simp [MmapManager.extendBuffer]
    · simpa [MmapManager.extendBuffer, hba] using h.offset_le b hb
  case mapped =>
    intro b hb
    rw [hmaps]
    by_cases hba : b = a
    · rw [hba, hself]
      exact List.mem_cons_self
    · rw [hother b hba]
      exact List.mem_cons_of_mem _ (h.mapped b hb)
  case maps_bound =>
    intro e he
    rw [hmaps] at he
    rcases List.mem_cons.mp he with rfl | he
    · exact ⟨Nat.pos_of_ne_zero hne, hlt⟩
    · exact h.maps_bound e he
  case regions_apart =>
    intro b hb d hd hbd
    by_cases hba : b = a
    · rw [hba, hself, hother d (hba ▸ hbd.symm)]
      exact hnew d hd
    · by_cases hda : d = a
      · rw [hda, hself, hother b hba]
        exact (hnew b hb).symm
      · rw [hother b hba, hother d hda]
        exact h.regions_apart b hb d hd hbd
  case ranges_mapped =>
    intro r hr
    obtain ⟨e, he, hin⟩ := h.ranges_mapped r hr
    exact ⟨e, by rw [hmaps]; exact List.mem_cons_of_mem _ he, hin⟩
  case ranges_apart => exact h.ranges_apart
  case tail_apart =>
    intro b hb r hr
    by_cases hba : b = a
    · -- the new tail is all of the new mapping, what was handed out is in an old one
      obtain ⟨e, he, hin⟩ := h.ranges_mapped r hr
      have hwithin : ((mm.extendBuffer c a size ret).tail b).Within ⟨ret, align size c.pageSize⟩ := by
        rw [hba]
        simp [tail, MmapManager.extendBuffer, Extent.Within]
      exact (hapart e he).mono hwithin hin
    · rw [htail b hba]
      exact h.tail_apart b hb r hr
  case untouched =>
    intro b hb hflag
    by_cases hba : b = a
    · subst hba
      simp [MmapManager.extendBuffer]
    · have := h.untouched b hb hflag
      simpa [MmapManager.extendBuffer, hba] using this

/-- A request is served from the start of the tail. -/
theorem serve_fst (h : ArenaInv c mm) (ha : a < c.threadN) (size : Nat) :
    (mm.serve a size).1 = mm.pools a + mm.offsets a := by
  have hoff := h.offset_le a ha
  have := (h.pool_add_size_lt ha).2
  exact u64_of_lt (by omega)

variable (h : ArenaInv c mm) (ha : a < c.threadN) (hfit : size ≤ mm.sizes a - mm.offsets a)
include h ha hfit

/-- A served request lies in the tail it was taken from. -/
theorem serve_within_tail : (⟨(mm.serve a size).1, size⟩ : Extent).Within (mm.tail a) := by
  rw [h.serve_fst ha]
  exact ⟨Nat.le_refl _, Nat.add_le_add_left hfit _⟩

/-- **Serving.** A request that fits takes the front of the tail, which nothing
else was handed. -/
theorem serve (htouched : mm.firstTouchFlag a = true) : ArenaInv c (mm.serve a size).2 := by
  have hoff := h.offset_le a ha
  have hbound := (h.pool_add_size_lt ha).2
  have hp := h.serve_fst ha size
  have hadd : u64 (mm.offsets a + size) = mm.offsets a + size := u64_of_lt (by omega)
  have hranges : (mm.serve a size).2.ranges = ⟨mm.pools a + mm.offsets a, size⟩ :: mm.ranges := by
    rw [← hp]
    rfl
  have hwithin := h.serve_within_tail ha hfit
  rw [hp] at hwithin
  have htail : ∀ b, b ≠ a → (mm.serve a size).2.tail b = mm.tail b :=
    fun b hb => by simp [tail, MmapManager.serve, hb]
  have hself : (mm.serve a size).2.tail a =
      ⟨mm.pools a + (mm.offsets a + size), mm.sizes a - (mm.offsets a + size)⟩ := by
    simp [tail, MmapManager.serve, hadd]
  constructor
  case offset_le =>
    intro b hb
    by_cases hba : b = a
    · subst hba
      simp only [MmapManager.serve, Function.update_self, hadd]
      omega
    · simpa [MmapManager.serve, hba] using h.offset_le b hb
  case mapped => exact h.mapped
  case maps_bound => exact h.maps_bound
  case regions_apart => exact h.regions_apart
  case ranges_mapped =>
    intro r hr
    rw [hranges] at hr
    rcases List.mem_cons.mp hr with rfl | hr
    · exact ⟨_, h.mapped a ha, hwithin.trans (h.tail_within ha)⟩
    · exact h.ranges_mapped r hr
  case ranges_apart =>
    rw [hranges]
    exact List.pairwise_cons.mpr
      ⟨fun r hr => (h.tail_apart a ha r hr).mono hwithin (Extent.Within.refl r), h.ranges_apart⟩
  case tail_apart =>
    intro b hb r hr
    rw [hranges] at hr
    by_cases hba : b = a
    · -- what is left of the tail is behind the range just handed out
      rw [hba, hself]
      rcases List.mem_cons.mp hr with rfl | hr
      · rw [Extent.apart_iff]
        simp only
        omega
      · refine (h.tail_apart a ha r hr).mono ?_ (Extent.Within.refl r)
        simp only [Extent.Within, tail]
        omega
    · rw [htail b hba]
      rcases List.mem_cons.mp hr with rfl | hr
      · exact (h.regions_apart b hb a ha hba).mono (h.tail_within hb)
          (hwithin.trans (h.tail_within ha))
      · exact h.tail_apart b hb r hr
  case untouched =>
    intro b hb hflag
    by_cases hba : b = a
    · subst hba
      exact absurd (htouched.symm.trans hflag) (by decide)
    · have := h.untouched b hb hflag
      simpa [MmapManager.serve, hba] using this

end ArenaInv

/-! ### Runs of Malloc -/

/-- One call of `Malloc`: the thread-local `mainThreadFlag`, the arguments, and what
`mmap` returns should the call extend the arena. -/
structure Call where
  main : Bool
  core : Nat
  size : Nat
  ret : Nat

namespace Call

/-- The arena the call works on. -/
def arena (c : Config) (k : Call) : Nat := c.arena k.main k.core

/-- What callers and the system owe: a core number in range and, if the call makes
an `mmap`, a fresh mapping. -/
structure Legal (c : Config) (mm : MmapManager) (k : Call) : Prop where
  core_le : k.core ≤ c.coreN
  size_lt : k.size < 2 ^ 64
  fresh : mm.needsExtension c (k.arena c) k.size = true →
    c.Fresh mm.maps k.ret (align (allocSize k.size) c.pageSize)

/-- The request fits into the rest of its arena, or the arena may be extended and
rounding the extension up to a page does not wrap. -/
def Fits (c : Config) (mm : MmapManager) (k : Call) : Prop :=
  k.size ≤ mm.sizes (k.arena c) - mm.offsets (k.arena c) ∨
    c.forceMmapFlag = true ∧ allocSize k.size + c.pageSize ≤ 2 ^ 64

end Call

/-- The runs of `Malloc` from `Init` whose calls all satisfy `ok`, with the ranges
`[p, p + size)` of the non-null results so far, newest first. -/
inductive Run (c : Config) (base : Nat → Nat) (ok : MmapManager → Call → Prop) :
    MmapManager → List Extent → Prop
  | init : Run c base ok (init c base) []
  | call {mm mm' : MmapManager} {given : List Extent} {k : Call} {p : Nat} {touched : List Nat} :
      Run c base ok mm given → k.Legal c mm → ok mm k →
      malloc c k.main mm k.core k.size k.ret = some (p, mm', touched) →
      Run c base ok mm' (if p = 0 then given else ⟨p, k.size⟩ :: given)

/-- The arenas are sound after some calls whose results were `given`. -/
structure Safe (c : Config) (mm : MmapManager) (given : List Extent) : Prop where
  offset_le : ∀ a < c.threadN, mm.offsets a ≤ mm.sizes a
  inside : ∀ r ∈ given, ∃ e ∈ mm.maps, r.Within e
  apart : given.Pairwise Extent.Apart

/-- A call that returns `nullptr` leaves the arena arrays as they were. -/
def NullKeeps (c : Config) (mm : MmapManager) (k : Call) : Prop :=
  ∀ mm' touched, malloc c k.main mm k.core k.size k.ret = some (0, mm', touched) →
    mm'.sizes = mm.sizes ∧ mm'.offsets = mm.offsets ∧ mm'.pools = mm.pools

variable {k : Call} {p : Nat} {touched : List Nat}

/-- What a call that returns has done: touched the arena, then served it, directly
or after an extension. -/
theorem malloc_cases (h : malloc c k.main mm k.core k.size k.ret = some (p, mm', touched)) :
    ∃ mm₁, touchOnce c k.main mm (k.arena c) = some (mm₁, touched) ∧
      ((mm₁.needsExtension c (k.arena c) k.size = false ∧
          p = (mm₁.serve (k.arena c) k.size).1 ∧ mm' = (mm₁.serve (k.arena c) k.size).2) ∨
        (mm₁.needsExtension c (k.arena c) k.size = true ∧
          (p, mm') = (mm₁.extend c (k.arena c) k.size k.ret).finishExtended (k.arena c) k.size)) := by
  unfold malloc at h
  dsimp only at h
  obtain ⟨⟨mm₁, w⟩, ht, hr⟩ := Option.map_eq_some_iff.mp h
  obtain ⟨hp, hr⟩ := Prod.mk.inj hr
  obtain ⟨hmm, rfl⟩ := Prod.mk.inj hr
  rw [show c.arena k.main k.core = k.arena c from rfl] at ht hp hmm
  refine ⟨mm₁, ht, ?_⟩
  cases hext : mm₁.needsExtension c (k.arena c) k.size with
  | false =>
      simp only [hext, Bool.false_eq_true, if_false] at hp hmm
      exact Or.inl ⟨rfl, hp.symm, hmm.symm⟩
  | true =>
      simp only [hext, if_true] at hp hmm
      exact Or.inr ⟨rfl, Prod.ext hp.symm hmm.symm⟩

/-- A call that extends its arena, computed. -/
theorem malloc_of_extends {main : Bool}
    (ht : touchOnce c main mm (c.arena main core) = some (mm', touched))
    (hneed : mm'.needsExtension c (c.arena main core) size = true) :
    malloc c main mm core size ret =
      some (((mm'.extend c (c.arena main core) size ret).finishExtended
        (c.arena main core) size).1, ((mm'.extend c (c.arena main core) size ret).finishExtended
        (c.arena main core) size).2, touched) := by
  simp only [malloc, ht, Option.map_some, hneed, if_true]

/-- A request for nothing moves no offset. -/
theorem malloc_zero {main : Bool} (h : malloc c main mm core 0 ret = some (p, mm', touched))
    (hlt : mm.offsets (c.arena main core) < 2 ^ 64) : mm'.offsets = mm.offsets := by
  obtain ⟨mm₁, ht, hcases⟩ := malloc_cases (k := ⟨main, core, 0, ret⟩) h
  obtain ⟨-, hoffsets, -⟩ := touchOnce_frame ht
  have hlt₁ : mm₁.offsets (c.arena main core) < 2 ^ 64 := by rwa [hoffsets]
  cases hcases with
  | inl hserved =>
      obtain ⟨-, -, rfl⟩ := hserved
      exact (serve_zero hlt₁).trans hoffsets
  | inr hextended =>
      obtain ⟨hneed, -⟩ := hextended
      simp [needsExtension] at hneed

/-- **One call.** From the invariant, a legal call that fits returns a non-null
range in one mapping, apart from all earlier ones, and keeps the invariant. -/
theorem ArenaInv.malloc (h : ArenaInv c mm) (hlegal : k.Legal c mm) (hfits : k.Fits c mm)
    (hm : malloc c k.main mm k.core k.size k.ret = some (p, mm', touched)) :
    ArenaInv c mm' ∧ p ≠ 0 ∧ mm'.ranges = ⟨p, k.size⟩ :: mm.ranges := by
  have ha : k.arena c < c.threadN := Config.arena_lt hlegal.core_le
  obtain ⟨mm₁, ht, hcases⟩ := malloc_cases hm
  have h₁ : ArenaInv c mm₁ := h.touchOnce ht
  have hflag : mm₁.firstTouchFlag (k.arena c) = true := ArenaInv.flag_of_touchOnce ht
  obtain ⟨hsizes, hoffsets, hpools, hmaps, hranges⟩ := touchOnce_frame ht
  have hneed := needsExtension_touchOnce ht (k.arena c) k.size
  obtain ⟨hno, rfl, rfl⟩ | ⟨hyes, heq⟩ := hcases
  · have hfit : k.size ≤ mm₁.sizes (k.arena c) - mm₁.offsets (k.arena c) := by
      rcases hfits with hfit | ⟨hforce, -⟩
      · rwa [hsizes, hoffsets]
      · simp only [needsExtension, hforce, Bool.and_true, decide_eq_false_iff_not,
          h₁.restSize_eq ha] at hno
        omega
    refine ⟨h₁.serve ha hfit hflag, ?_, by rw [← hranges]; rfl⟩
    have := (h₁.pool_add_size_lt ha).1
    rw [h₁.serve_fst ha]
    omega
  · -- the extension: a fresh pool, large enough because the round-up did not wrap
    rw [hneed] at hyes
    have hfresh := hlegal.fresh hyes
    have hwrap : allocSize k.size + c.pageSize ≤ 2 ^ 64 := by
      rcases hfits with hfit | ⟨-, hwrap⟩
      · simp only [needsExtension, Bool.and_eq_true, decide_eq_true_iff, h.restSize_eq ha] at hyes
        omega
      · exact hwrap
    rw [← hmaps] at hfresh
    have h₂ : ArenaInv c (mm₁.extend c (k.arena c) k.size k.ret) := h₁.extendBuffer ha hfresh
    have hsize := (align_spec c.pageSize_pos hwrap).1
    have hle := le_allocSize k.size
    have hfit : k.size ≤ (mm₁.extend c (k.arena c) k.size k.ret).sizes (k.arena c) -
        (mm₁.extend c (k.arena c) k.size k.ret).offsets (k.arena c) := by
      simp only [extend, MmapManager.extendBuffer, Function.update_self]
      omega
    rw [finishExtended, if_neg (by rw [h₂.restSize_eq ha]; omega)] at heq
    obtain rfl : p = _ := congrArg Prod.fst heq
    obtain rfl : mm' = _ := congrArg Prod.snd heq
    refine ⟨h₂.serve ha hfit hflag, ?_, by rw [← hranges]; rfl⟩
    have := (h₂.pool_add_size_lt ha).1
    rw [h₂.serve_fst ha]
    omega

/-- **Runs.** Along a run whose calls all fit the invariant holds and the history of
served ranges is the list of results. -/
theorem Run.inv (hbase : c.FreshBase base) {given : List Extent}
    (hrun : Run c base (fun mm k => k.Fits c mm) mm given) : ArenaInv c mm ∧ mm.ranges = given := by
  induction hrun with
  | init => exact ⟨arenaInv_init hbase, (init_spec hbase).2.2.2.2⟩
  | call _ hlegal hfits hm ih =>
      obtain ⟨hinv, hp, hranges⟩ := ih.1.malloc hlegal hfits hm
      exact ⟨hinv, by rw [if_neg hp, hranges, ih.2]⟩

/-- **Arena safety.** In every run of `Malloc` whose calls all fit, after every call
each offset is within its arena, the results lie in one mapping each and are
pairwise disjoint, and a call that returns `nullptr` changes nothing. -/
theorem run_safe (c : Config) (base : Nat → Nat) (hbase : c.FreshBase base) (mm : MmapManager)
    (given : List Extent) (hrun : Run c base (fun mm k => k.Fits c mm) mm given) :
    Safe c mm given ∧ ∀ k : Call, k.Legal c mm → k.Fits c mm → NullKeeps c mm k := by
  obtain ⟨hinv, rfl⟩ := hrun.inv hbase
  refine ⟨⟨hinv.offset_le, hinv.ranges_mapped, hinv.ranges_apart⟩, fun k hlegal hfits => ?_⟩
  intro mm' touched hm
  exact absurd rfl (hinv.malloc hlegal hfits hm).2.1

/-- A call that does not fit breaks the property at once, on any arena that is not
empty: the offset passes the pool, or the range leaves every mapping, or `nullptr`
comes with the pool replaced by an empty one. -/
theorem breaks_of_not_fits (h : ArenaInv c mm) (hlegal : k.Legal c mm) (hfits : ¬ k.Fits c mm)
    (hpage : c.pageSize ≤ 2 ^ 64) (hpos : 0 < mm.sizes (k.arena c))
    (hm : malloc c k.main mm k.core k.size k.ret = some (p, mm', touched)) :
    ¬ Safe c mm' (if p = 0 then mm.ranges else ⟨p, k.size⟩ :: mm.ranges) ∨ ¬ NullKeeps c mm k := by
  have ha : k.arena c < c.threadN := Config.arena_lt hlegal.core_le
  obtain ⟨hbig, hnoext⟩ := not_or.mp hfits
  obtain ⟨mm₁, ht, hcases⟩ := malloc_cases hm
  have h₁ : ArenaInv c mm₁ := h.touchOnce ht
  obtain ⟨hsizes, hoffsets, hpools, hmaps, hranges⟩ := touchOnce_frame ht
  have hsize := hlegal.size_lt
  obtain ⟨hno, rfl, rfl⟩ | ⟨hyes, heq⟩ := hcases
  · -- falls through to the tail: either the offset passes the pool, or it wraps and
    -- the range is larger than the address space above it
    have hbound := (h₁.pool_add_size_lt ha)
    have hoff := h₁.offset_le _ ha
    have hp := h₁.serve_fst ha k.size
    rw [← hsizes, ← hoffsets] at hbig
    refine Or.inl fun hsafe => ?_
    have hle := hsafe.offset_le _ ha
    rw [if_neg (by omega), hp] at hsafe
    simp only [serve, Function.update_self] at hle
    obtain ⟨e, he, hin⟩ := hsafe.inside _ List.mem_cons_self
    have he' := h₁.maps_bound e he
    simp only [Extent.Within] at hin
    by_cases hwrap : mm₁.offsets (k.arena c) + k.size < 2 ^ 64
    · rw [u64_of_lt hwrap] at hle
      omega
    · omega
  · rw [needsExtension_touchOnce ht] at hyes
    have hforce : c.forceMmapFlag = true := by
      simp only [needsExtension, Bool.and_eq_true] at hyes
      exact hyes.2
    have hwrap : 2 ^ 64 < allocSize k.size + c.pageSize :=
      Nat.lt_of_not_le fun hle => hnoext ⟨hforce, hle⟩
    have halloc : allocSize k.size < 2 ^ 64 := by
      unfold allocSize oneGB
      split <;> omega
    have hzero : align (allocSize k.size) c.pageSize = 0 := align_of_wrap halloc hpage hwrap
    have hrest : (mm₁.extend c (k.arena c) k.size k.ret).restSize (k.arena c) = 0 := by
      simp [restSize, extend, extendBuffer, hzero, u64]
    rw [finishExtended, if_pos (by omega)] at heq
    obtain ⟨rfl, rfl⟩ := Prod.mk.inj heq
    refine Or.inr fun hkeeps => ?_
    have hsz := congrFun (hkeeps _ _ hm).1 (k.arena c)
    simp only [extend, extendBuffer, Function.update_self, hzero] at hsz
    omega

instance (c : Config) (mm : MmapManager) (k : Call) : Decidable (k.Legal c mm) :=
  decidable_of_iff (k.core ≤ c.coreN ∧ k.size < 2 ^ 64 ∧
    (mm.needsExtension c (k.arena c) k.size = true →
      c.Fresh mm.maps k.ret (align (allocSize k.size) c.pageSize)))
    ⟨fun ⟨hcore, hsize, hfresh⟩ => ⟨hcore, hsize, hfresh⟩, fun h => ⟨h.core_le, h.size_lt, h.fresh⟩⟩

instance (c : Config) (mm : MmapManager) (k : Call) : Decidable (k.Fits c mm) :=
  inferInstanceAs (Decidable (_ ∨ _))

/-- Some calls from `mm` on, all of which are legal, fit and return, with their ranges added to
`given`. -/
def calls (c : Config) (mm : MmapManager) (given : List Extent) :
    List Call → Option (MmapManager × List Extent)
  | [] => some (mm, given)
  | k :: ks =>
      if k.Legal c mm ∧ k.Fits c mm then
        (malloc c k.main mm k.core k.size k.ret).bind fun r =>
          calls c r.2.1 (if r.1 = 0 then given else ⟨r.1, k.size⟩ :: given) ks
      else none

theorem Run.calls {c : Config} {base : Nat → Nat} {mm mm' : MmapManager} {given given' : List Extent}
    {ks : List Call} (h : Run c base (fun mm k => k.Fits c mm) mm given)
    (hcalls : calls c mm given ks = some (mm', given')) :
    Run c base (fun mm k => k.Fits c mm) mm' given' := by
  induction ks generalizing mm given with
  | nil =>
      obtain ⟨rfl, rfl⟩ := Prod.mk.inj (Option.some.inj hcalls)
      exact h
  | cons k ks ih =>
      rw [MmapManager.calls] at hcalls
      split at hcalls
      case isTrue hok =>
        obtain ⟨r, hm, hrest⟩ := Option.bind_eq_some_iff.mp hcalls
        exact ih (.call h hok.1 hok.2 hm) hrest
      case isFalse => exact absurd hcalls (by simp)

/-- A page by a thread on core 0, then 48 MB, for which the arena is extended, and one more page
and 32 MB, for which it is extended again. -/
def fourCalls : List Call :=
  [⟨false, 0, 0x1000, 0⟩, ⟨false, 0, 0x3000000, 0x810000000000⟩, ⟨false, 0, 0x1000, 0⟩,
    ⟨false, 0, 0x2000000, 0x820000000000⟩]

theorem fourCalls_return :
    (calls oneCore (init oneCore oneCoreBase) [] fourCalls).isSome = true := by decide +kernel

/-- Their run is safe. -/
theorem run_safe_fourCalls : ∃ mm given, given.length = 4 ∧ mm.extendOffset = 3 ∧
    Run oneCore oneCoreBase (fun mm k => k.Fits oneCore mm) mm given ∧ Safe oneCore mm given := by
  obtain ⟨⟨mm, given⟩, hcalls⟩ := Option.isSome_iff_exists.mp fourCalls_return
  have hcount : (calls oneCore (init oneCore oneCoreBase) [] fourCalls).map
      (fun x => (x.2.length, x.1.extendOffset)) = some (4, 3) := by decide +kernel
  rw [hcalls, Option.map_some] at hcount
  obtain ⟨hlength, hextended⟩ := Prod.mk.inj (Option.some.inj hcount)
  have hrun : Run oneCore oneCoreBase (fun mm k => k.Fits oneCore mm) mm given :=
    Run.calls .init hcalls
  exact ⟨mm, given, hlength, hextended, hrun,
    (run_safe oneCore oneCoreBase (by decide) mm given hrun).1⟩

/-- One core, a 1 MB arena for its threads, and `FCM_FORCE_EXTEND_MEM_FLAG=0`. -/
def noForce : Config :=
  mainInit 1 4096 4 .setDefault (some 0) none (some 1) one_core four_slots page_4096

/-- A request of 2 MB on that arena. -/
def twoMB : Call := ⟨false, 0, 0x200000, 0⟩

theorem twoMB_returns : (malloc noForce twoMB.main (init noForce oneCoreBase) twoMB.core
    twoMB.size twoMB.ret).isSome = true := by decide +kernel

/-- Without the flag the 2 MB request on the 1 MB arena is served past its end. -/
theorem noForce_overflows : ∃ mm given,
    Run noForce oneCoreBase (fun _ _ => True) mm given ∧ ¬ Safe noForce mm given := by
  have hlegal : twoMB.Legal noForce (init noForce oneCoreBase) :=
    ⟨by decide, by decide, fun h => absurd h (by decide)⟩
  have hrun : Run noForce oneCoreBase (fun _ _ => True) _ _ :=
    .call .init hlegal trivial (Option.some_get twoMB_returns).symm
  refine ⟨_, _, hrun, fun hsafe => ?_⟩
  have hpast : ¬ ((malloc noForce twoMB.main (init noForce oneCoreBase) twoMB.core twoMB.size
      twoMB.ret).get twoMB_returns).2.1.offsets 0 ≤ ((malloc noForce twoMB.main
      (init noForce oneCoreBase) twoMB.core twoMB.size twoMB.ret).get twoMB_returns).2.1.sizes 0 := by
    decide +kernel
  exact hpast (hsafe.offset_le 0 (by decide))

end MmapManager

end FCMalloc
