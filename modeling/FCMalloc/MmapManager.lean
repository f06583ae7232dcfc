import FCMalloc.Config
import FCMalloc.Library.CountedLoop
import FCMalloc.Library.Extent
import Mathlib.Logic.Function.Basic

/-!
# FCMalloc.MmapManager

The arena manager of `mmap_manager.cpp`: one bump-pointer arena for each core and
one for the main thread, grown by a fresh mapping when a request does not fit.

An `mmap` call is an input: `ret` is the address it returns, `mapFailed` when it
fails. `FirstTouch` clears one byte in each page, and its loop counter is an
`unsigned int` compared with a `size_t`; it is the one place of the manager that
may not return, so `firstTouch`, and `malloc` over it, return an `Option` whose
`none` is divergence.

`maps` and `ranges` are history variables the program does not have: the mappings
the manager obtained and the ranges it handed out, newest first.
-/

namespace FCMalloc

/-- `oneGB`. -/
def oneGB : Nat := 1024 * 1024 * 1024

/-- `MAP_FAILED`, that is `(void *)-1`. -/
def mapFailed : Nat := 2 ^ 64 - 1

/-- Reduction of an unsigned 32-bit result. -/
def u32 (n : Nat) : Nat := n % 2 ^ 32

/-- The arrays of `MmapManager`, indexed by arena (`sizess` and `poolss` by the
flattened pair of arena and extension number). -/
structure MmapManager where
  firstTouchFlag : Nat → Bool
  sizes : Nat → Nat
  offsets : Nat → Nat
  pools : Nat → Nat
  extendOffset : Nat
  sizess : Nat → Nat
  poolss : Nat → Nat
  debugSizes : Nat → Nat
  debugOffsets : Nat → Nat
  maps : List Extent
  ranges : List Extent

namespace MmapManager

/-- `extendMax_`, "determined by experiment". -/
def extendMax : Nat := 10000

/-- The history of mappings after one more `mmap` call. -/
def recordMap (maps : List Extent) (ret : Nat) (len : Nat) : List Extent :=
  if ret = mapFailed then maps else ⟨ret, len⟩ :: maps

/-! ### Init -/

/-- The arrays as `TypeAwareMemAllocate` obtains them: zero-filled pages. -/
def blank : MmapManager where
  firstTouchFlag _ := false
  sizes _ := 0
  offsets _ := 0
  pools _ := 0
  extendOffset := 0
  sizess _ := 0
  poolss _ := 0
  debugSizes _ := 0
  debugOffsets _ := 0
  maps := []
  ranges := []

/-- `mainMmapSize` for the main thread's arena, `subMmapSize` for the others. -/
def initSize (c : Config) (i : Nat) : Nat :=
  if i = c.mainThreadIndex then align c.mainSize c.pageSize
  else align (c.subTotalSize / c.coreN) c.pageSize

/-- One round of the loop of `Init`, with `ret` returned by its `mmap`. -/
def initArena (c : Config) (ret : Nat) (i : Nat) (mm : MmapManager) : MmapManager :=
  let mmapSize := initSize c i
  { mm with
    pools := Function.update mm.pools i ret
    sizes := Function.update mm.sizes i mmapSize
    offsets := Function.update mm.offsets i 0
    debugSizes := Function.update mm.debugSizes i mmapSize
    debugOffsets := Function.update mm.debugOffsets i 0
    sizess := Function.update mm.sizess (extendMax * i + 0) mmapSize
    poolss := Function.update mm.poolss (extendMax * i + 0) ret
    maps := recordMap mm.maps ret mmapSize }

/-- `Init`, where the `mmap` of arena `i` returns `base i`. -/
def init (c : Config) (base : Nat → Nat) : MmapManager :=
  { forRange c.threadN (fun i mm => initArena c (base i) i mm) blank with extendOffset := 1 }

/-! One core, the default four slots and pages of 4 KB. -/

theorem one_core : 0 < 1 ∧ 1 < 2 ^ 31 := by decide

theorem four_slots : 0 < 4 := by decide

theorem page_4096 : 0 < 4096 ∧ 4096 < 2 ^ 63 := by decide

/-- One core with the default settings, and where its two arenas are mapped. -/
def oneCore : Config :=
  mainInit 1 4096 4 .setDefault none none none one_core four_slots page_4096

def oneCoreBase (i : Nat) : Nat := 0x7f0000000000 + i * 0x10000000000

/-! ### FirstTouch -/

/-- The loop of `FirstTouch` from counter value `of`: the addresses cleared, or
`none` if it has not ended after `fuel` tests. The counter is 32 bits wide. -/
def firstTouchLoop (p mmapSize pageSize : Nat) : (fuel : Nat) → (of : Nat) → Option (List Nat)
  | 0, _ => none
  | fuel + 1, of =>
      if of < mmapSize then
        (firstTouchLoop p mmapSize pageSize fuel (u32 (of + pageSize))).map (u64 (p + of) :: ·)
      else some []

/-- `FirstTouch`. The counter has `2 ^ 32` values, so a loop that has not ended
after that many tests never does (`firstTouchLoop_complete`). Irreducible, so that
no unifier ever unfolds the fuel. -/
@[irreducible] def firstTouch (c : Config) (mainThreadFlag : Bool) (mm : MmapManager) (core : Nat) :
    Option (List Nat) :=
  let core := c.arena mainThreadFlag core
  firstTouchLoop (mm.pools core) (mm.sizes core) c.pageSize (2 ^ 32) 0

/-- The guarded call of `FirstTouch` in `Malloc`. -/
def touchOnce (c : Config) (mainThreadFlag : Bool) (mm : MmapManager) (core : Nat) :
    Option (MmapManager × List Nat) :=
  if !mm.firstTouchFlag core then
    (firstTouch c mainThreadFlag mm core).map fun touched =>
      ({ mm with firstTouchFlag := Function.update mm.firstTouchFlag core true }, touched)
  else some (mm, [])

/-! ### Malloc -/

/-- `ExtendBuffer`. The result of `mmap` is stored without a check. The record is kept in functions,
so a store behind the last row changes nothing else here; `FCMalloc.ExtensionLedger` says when the
stores stay in their rows. -/
def extendBuffer (c : Config) (mm : MmapManager) (core size : Nat) (ret : Nat) : MmapManager :=
  let mmapSize := align size c.pageSize
  { mm with
    pools := Function.update mm.pools core ret
    sizes := Function.update mm.sizes core mmapSize
    offsets := Function.update mm.offsets core 0
    debugSizes := Function.update mm.debugSizes core (u64 (mm.debugSizes core + mmapSize))
    sizess := Function.update mm.sizess (extendMax * core + mm.extendOffset) mmapSize
    poolss := Function.update mm.poolss (extendMax * core + mm.extendOffset) ret
    extendOffset := mm.extendOffset + 1
    maps := recordMap mm.maps ret mmapSize }

/-- `restSize`, an unsigned subtraction. -/
def restSize (mm : MmapManager) (core : Nat) : Nat :=
  u64 (mm.sizes core + 2 ^ 64 - mm.offsets core)

/-- What an extension for a request of `size` bytes asks for: at least 64 MB. -/
def allocSize (size : Nat) : Nat := if oneGB >>> 4 > size then oneGB >>> 4 else size

/-- The extension step of `Malloc`. -/
def extend (c : Config) (mm : MmapManager) (core size : Nat) (ret : Nat) : MmapManager :=
  mm.extendBuffer c core (allocSize size) ret

/-- The tail of `Malloc`: hand out the next `size` bytes of the arena. -/
def serve (mm : MmapManager) (core size : Nat) : Nat × MmapManager :=
  let p := u64 (mm.pools core + mm.offsets core)
  (p, { mm with
    offsets := Function.update mm.offsets core (u64 (mm.offsets core + size))
    debugOffsets := Function.update mm.debugOffsets core (u64 (mm.debugOffsets core + size))
    ranges := ⟨p, size⟩ :: mm.ranges })

/-- What `Malloc` does once the extension is made: test again, then serve. -/
def finishExtended (mm : MmapManager) (core size : Nat) : Nat × MmapManager :=
  if mm.restSize core < size then (0, mm) else mm.serve core size

/-- Whether `Malloc` takes the extension branch on arena `core`. -/
def needsExtension (c : Config) (mm : MmapManager) (core size : Nat) : Bool :=
  decide (mm.restSize core < size) && c.forceMmapFlag

/-- `Malloc`: the address handed out, the manager afterwards and the bytes
`FirstTouch` cleared. Without `forceMmapFlag_` a request that does not fit falls
through to the tail. -/
def malloc (c : Config) (mainThreadFlag : Bool) (mm : MmapManager) (core size : Nat) (ret : Nat) :
    Option (Nat × MmapManager × List Nat) :=
  let core := c.arena mainThreadFlag core
  (touchOnce c mainThreadFlag mm core).map fun touch =>
    let mm := touch.1
    let r :=
      if mm.needsExtension c core size then (mm.extend c core size ret).finishExtended core size
      else mm.serve core size
    (r.1, r.2, touch.2)

/-- `Malloc` up to its first `printf`: `some p` when the request was served, `none` when
the arena was extended and the report comes next, still under the arena's mutex. -/
def enter (c : Config) (mainThreadFlag : Bool) (mm : MmapManager) (core size : Nat) (ret : Nat) :
    Option (Option Nat × MmapManager × List Nat) :=
  let core := c.arena mainThreadFlag core
  (touchOnce c mainThreadFlag mm core).map fun touch =>
    let mm := touch.1
    if mm.needsExtension c core size then (none, mm.extend c core size ret, touch.2)
    else
      let r := mm.serve core size
      (some r.1, r.2, touch.2)

/-- `Malloc` after the report. -/
def leave (c : Config) (mainThreadFlag : Bool) (core size : Nat)
    (e : Option Nat × MmapManager × List Nat) : Nat × MmapManager × List Nat :=
  match e.1 with
  | some p => (p, e.2)
  | none =>
      let r := e.2.1.finishExtended (c.arena mainThreadFlag core) size
      (r.1, r.2, e.2.2)

/-! ### Effects -/

variable {c : Config} {mm mm' : MmapManager} {core size : Nat} {ret : Nat}

/-- The two halves make up `Malloc`. -/
theorem malloc_eq (main : Bool) : malloc c main mm core size ret =
    (enter c main mm core size ret).map (leave c main core size) := by
  simp only [malloc, enter]
  cases touchOnce c main mm (c.arena main core) with
  | none => rfl
  | some touch =>
      simp only [Option.map_some]
      cases touch.1.needsExtension c (c.arena main core) size with
      | true => simp only [if_true, leave]
      | false => simp only [Bool.false_eq_true, if_false, leave]

theorem touchOnce_cases {main : Bool} {touched : List Nat}
    (h : touchOnce c main mm core = some (mm', touched)) :
    (mm.firstTouchFlag core = true ∧ mm' = mm ∧ touched = []) ∨
    (mm.firstTouchFlag core = false ∧ firstTouch c main mm core = some touched ∧
      mm' = { mm with firstTouchFlag := Function.update mm.firstTouchFlag core true }) := by
  unfold touchOnce at h
  cases hflag : mm.firstTouchFlag core with
  | true =>
      rw [hflag] at h
      obtain ⟨rfl, rfl⟩ := Prod.mk.inj (Option.some.inj h)
      exact Or.inl ⟨rfl, rfl, rfl⟩
  | false =>
      rw [hflag] at h
      obtain ⟨w, hw, heq⟩ := Option.map_eq_some_iff.mp h
      obtain ⟨rfl, rfl⟩ := Prod.mk.inj heq
      exact Or.inr ⟨rfl, hw, rfl⟩

/-- Touching changes only the flag. -/
theorem touchOnce_frame {main : Bool} {touched : List Nat}
    (h : touchOnce c main mm core = some (mm', touched)) :
    mm'.sizes = mm.sizes ∧ mm'.offsets = mm.offsets ∧ mm'.pools = mm.pools ∧
      mm'.maps = mm.maps ∧ mm'.ranges = mm.ranges := by
  obtain ⟨-, rfl, -⟩ | ⟨-, -, rfl⟩ := touchOnce_cases h <;> exact ⟨rfl, rfl, rfl, rfl, rfl⟩

/-- Touching does not change whether the request needs an extension. -/
theorem needsExtension_touchOnce {main : Bool} {touched : List Nat}
    (ht : touchOnce c main mm core = some (mm', touched)) (a size : Nat) :
    mm'.needsExtension c a size = mm.needsExtension c a size := by
  obtain ⟨hs, ho, -⟩ := touchOnce_frame ht
  rw [needsExtension, needsExtension, restSize, restSize, hs, ho]

/-- Without an extension the request is served. -/
theorem served_of_enter {main : Bool} {e : Option Nat × MmapManager × List Nat}
    (h : enter c main mm core size ret = some e)
    (hno : mm.needsExtension c (c.arena main core) size = false) : ∃ p, e.1 = some p := by
  unfold enter at h
  obtain ⟨⟨mm', touched⟩, ht, rfl⟩ := Option.map_eq_some_iff.mp h
  rw [← needsExtension_touchOnce ht] at hno
  simp only [hno, Bool.false_eq_true, if_false, Option.some.injEq, exists_eq']

/-- With an extension `Malloc` comes to its report. -/
theorem reports_of_enter {main : Bool} {e : Option Nat × MmapManager × List Nat}
    (h : enter c main mm core size ret = some e)
    (hneed : mm.needsExtension c (c.arena main core) size = true) : e.1 = none := by
  unfold enter at h
  obtain ⟨⟨mm', touched⟩, ht, rfl⟩ := Option.map_eq_some_iff.mp h
  rw [← needsExtension_touchOnce ht] at hneed
  simp only [hneed, if_true]

/-- Otherwise the arena is extended after the touch. -/
theorem enter_extends {main : Bool} {touched : List Nat}
    (ht : touchOnce c main mm (c.arena main core) = some (mm', touched))
    (hneed : mm.needsExtension c (c.arena main core) size = true) :
    enter c main mm core size ret =
      some (none, mm'.extend c (c.arena main core) size ret, touched) := by
  rw [← needsExtension_touchOnce ht] at hneed
  simp only [enter, ht, Option.map_some, hneed, if_true]

theorem extendOffset_touchOnce {main : Bool} {touched : List Nat}
    (h : touchOnce c main mm core = some (mm', touched)) :
    mm'.extendOffset = mm.extendOffset := by
  obtain ⟨-, rfl, -⟩ | ⟨-, -, rfl⟩ := touchOnce_cases h <;> rfl

theorem restSize_of_le (hle : mm.offsets core ≤ mm.sizes core) (hlt : mm.sizes core < 2 ^ 64) :
    mm.restSize core = mm.sizes core - mm.offsets core := by
  rw [restSize, u64]
  omega

/-- A call returns if the touch does. -/
theorem malloc_returns_iff (c : Config) (main : Bool) (mm : MmapManager) (core size ret : Nat) :
    (∃ r, malloc c main mm core size ret = some r) ↔
    ∃ touch, touchOnce c main mm (c.arena main core) = some touch := by
  simp only [malloc, ← Option.isSome_iff_exists, Option.isSome_map]

/-- Serving nothing moves no offset. -/
theorem serve_zero (hlt : mm.offsets core < 2 ^ 64) :
    (mm.serve core 0).2.offsets = mm.offsets := by
  show Function.update mm.offsets core (u64 (mm.offsets core + 0)) = mm.offsets
  rw [Nat.add_zero, u64_of_lt hlt, Function.update_eq_self]

theorem le_allocSize (size : Nat) : size ≤ allocSize size := by
  unfold allocSize
  split <;> omega

end MmapManager

end FCMalloc
