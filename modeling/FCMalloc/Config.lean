import FCMalloc.Misc
import Mathlib.Data.Fin.Basic

/-!
# FCMalloc.Config

What `mainInit` reads once, before any thread allocates, and nothing writes
afterwards: the number of cores and of pool slots, the page size, the two arena
sizes, the extension flag and the size table of `MemorySizeManager`.

`Config` carries the facts the source relies on without checking: at least one
core, one slot and one byte per page, and a core count that fits its type.
-/

namespace FCMalloc

/-- `MemorySizeManager::Size`, the number of size classes. -/
abbrev numClasses : Nat := 64 + 1

/-- A size class: an index into the arrays of length `MemorySizeManager::Size`. -/
abbrev SizeClass := Fin numClasses

/-- `logarithm2` as an index: it never exceeds 64. -/
def sizeClass [ClzZero] (size : Nat) : SizeClass :=
  ⟨logarithm2 size, Nat.lt_succ_of_le (logarithm2_le size)⟩

@[simp] theorem sizeClass_val (size : Nat) : (sizeClass size).val = logarithm2 size := rfl

/-- `MemorySizeManager`: how many blocks of each class are carved or refilled at a
time. The entries are of type `int`. -/
structure MemorySizeManager where
  nPerSize : SizeClass → Int
  isInt : ∀ i, -2 ^ 31 ≤ nPerSize i ∧ nPerSize i < 2 ^ 31

namespace MemorySizeManager

/-- `GetMemorySize`. -/
def getMemorySize (msm : MemorySizeManager) (log2Size : SizeClass) : Int := msm.nPerSize log2Size

/-- `setDefault`: the table used without `FCM_SIZE_LIST_FILE`. -/
def setDefault : MemorySizeManager where
  nPerSize i :=
    ([0, 0, 0, 1000, 2000, 2000, 10000, 1000, 1000, 1000, 1024, 512, 512, 1024, 10240, 128, 2,
      1, 1, 1, 1, 1, 1, 1, 1, 1, 1, 1, 1, 1, 1, 1, 1, 1, 1] : List Int).getD i.val 0
  isInt := by decide

end MemorySizeManager

/-- Conversion of an `int` to `size_t`. -/
def toSizeT (n : Int) : Nat := (n % 2 ^ 64).toNat

theorem toSizeT_of_nonneg {n : Int} (h : 0 ≤ n) (h' : n < 2 ^ 64) : (toSizeT n : Int) = n := by
  rw [toSizeT, Int.emod_eq_of_lt h h', Int.toNat_of_nonneg h]

/-- The settings of one process. -/
structure Config where
  /-- `numCores`. -/
  coreN : Nat
  /-- `FCM_POOL_BUFFER_SIZE`: manager slots per core. -/
  poolN : Nat
  /-- `sysconf(_SC_PAGESIZE)`. -/
  pageSize : Nat
  /-- `FCM_FORCE_EXTEND_MEM_FLAG`. -/
  forceMmapFlag : Bool
  /-- `FCM_MAIN_MEM_MAX`, in bytes. -/
  mainSize : Nat
  /-- `FCM_SUB_MEM_MAX`, in bytes, for all cores together. -/
  subTotalSize : Nat
  msm : MemorySizeManager
  coreN_pos : 0 < coreN
  poolN_pos : 0 < poolN
  pageSize_pos : 0 < pageSize
  /-- `numCores` is an `int`. -/
  coreN_lt : coreN < 2 ^ 31
  /-- `sysconf` returns a `long`. -/
  pageSize_lt : pageSize < 2 ^ 63
  /-- `outIntvl_` of a debug build, `FCM_MEM_LOG_INTVL`. -/
  outIntvl : Nat := 10000

/-- `mainInit`, up to the calls it makes: `forceExtendMem`, `mainMem` and `subMem` are
the parsed `FCM_FORCE_EXTEND_MEM_FLAG`, `FCM_MAIN_MEM_MAX` and `FCM_SUB_MEM_MAX`, if
set. The two sizes are kept in `unsigned int` and count megabytes. -/
def mainInit (numCores pageSize poolN : Nat) (msm : MemorySizeManager)
    (forceExtendMem mainMem subMem : Option Int)
    (hcores : 0 < numCores ∧ numCores < 2 ^ 31 := by decide) (hpool : 0 < poolN := by decide)
    (hpage : 0 < pageSize ∧ pageSize < 2 ^ 63 := by decide) : Config where
  coreN := numCores
  poolN := poolN
  pageSize := pageSize
  forceMmapFlag := match forceExtendMem with
    | none => true
    | some v => v > 0
  mainSize := u64 ((match mainMem with
    | none => 32
    | some v => (v % 2 ^ 32).toNat) * (1024 * 1024))
  subTotalSize := u64 ((match subMem with
    | none => 4 * numCores % 2 ^ 32
    | some v => (v % 2 ^ 32).toNat) * (1024 * 1024))
  msm := msm
  coreN_pos := hcores.1
  poolN_pos := hpool
  pageSize_pos := hpage.1
  coreN_lt := hcores.2
  pageSize_lt := hpage.2

namespace Config

/-- `threadN_`: one arena for each core and one for the main thread. -/
def threadN (c : Config) : Nat := c.coreN + 1

/-- `mainThreadIndex_`. -/
def mainThreadIndex (c : Config) : Nat := c.threadN - 1

/-- The arena a request on `core` is redirected to. -/
def arena (c : Config) (mainThreadFlag : Bool) (core : Nat) : Nat :=
  if mainThreadFlag then c.mainThreadIndex else core

theorem arena_lt {c : Config} {main : Bool} {core : Nat} (h : core ≤ c.coreN) :
    c.arena main core < c.threadN := by
  unfold arena threadN
  split
  · exact Nat.lt_succ_self _
  · omega

/-- A redirected core is its own arena. -/
@[simp] theorem arena_arena (c : Config) (main : Bool) (core : Nat) :
    c.arena main (c.arena main core) = c.arena main core := by
  cases main with
  | true => rfl
  | false => rfl

/-- The number of blocks the table asks for at once in class `i`. -/
def nPerSize (c : Config) (i : SizeClass) : Int := c.msm.getMemorySize i

/-- The count `GetMemorySize` gives for class `i`, as the `size_t` that carving receives. -/
def batch (c : Config) (i : SizeClass) : Nat := toSizeT (c.nPerSize i)

/-- The size table fits the address space: no entry is negative, and where one is
positive its blocks, with their headers, a stride of padding and one page, stay
below `2 ^ 63` bytes. -/
structure TableFits (c : Config) : Prop where
  nonneg : ∀ i, 0 ≤ c.nPerSize i
  bounded : ∀ i, 0 < c.nPerSize i →
    (c.nPerSize i).toNat * (2 ^ i.val + 64) + c.pageSize < 2 ^ 63

theorem TableFits.batch_eq {c : Config} (h : c.TableFits) (i : SizeClass) :
    c.batch i = (c.nPerSize i).toNat ∧ c.batch i < 2 ^ 31 := by
  have hnonneg := h.nonneg i
  have hint : c.nPerSize i < 2 ^ 31 := (c.msm.isInt i).2
  have hcast := toSizeT_of_nonneg hnonneg (by omega)
  unfold batch
  omega

end Config

end FCMalloc
