import FCMalloc.LocalMemoryManager
import Mathlib.Data.Int.ModEq

/-!
# FCMalloc.GlobalMemoryManager

`global_memory_manager.cpp`: how `Init` wires every manager to its lists, and how
managers are leased to threads and taken back.

`Init` numbers the managers `poolN_ * core + i` and deals out `memoryPools_` with a
running counter; `managerPools_eq` is the closed form, from which all facts about the
wiring follow by arithmetic (`listCore`). Neither the managers nor their pointers
change afterwards, so only `poolFlags_` and the two static offsets are state.

`AllocLocalMemoryManager` and `FreeLocalMemoryManager` scan the slots from a rotating
offset. Every slot is visited whatever the offset (`exists_rotate`), which is what
`allocLocalMemoryManager_spec` and `freeLocalMemoryManager_spec` rest on.
-/

namespace FCMalloc

/-- The state of `GlobalMemoryManager`: `poolFlags_` and the static variable `offset`
of the two functions that have one. -/
structure GlobalMemoryManager where
  poolFlags : Nat → Bool
  allocOffset : Int
  freeOffset : Int

namespace GlobalMemoryManager

/-! ### Init -/

/-- The arrays and the counter of the loops of `Init`. -/
structure Wiring where
  poolFlags : Nat → Bool
  managerPools : Nat → LocalMemoryManager
  cnt : Nat

/-- The arrays before `Init`: zero-filled pages. -/
def Wiring.blank : Wiring := ⟨fun _ => false, fun _ => LocalMemoryManager.init 0, 0⟩

/-- One round of the inner loop: manager `i` of `core`. -/
def wireManager (c : Config) (core i : Nat) (w : Wiring) : Wiring :=
  let m := (LocalMemoryManager.init c.coreN).setCore core
  let m := m.setMalloc (.memoryPools (w.cnt + 0))
  let m := forRange c.coreN (fun k m => m.setFree k (.memoryPools (w.cnt + 1 + k))) m
  { poolFlags := Function.update w.poolFlags (c.poolN * core + i) false
    managerPools := Function.update w.managerPools (c.poolN * core + i) m
    cnt := w.cnt + (1 + c.coreN) }

/-- The two outer loops. -/
def wire (c : Config) : Wiring :=
  forRange c.coreN (fun core w => forRange c.poolN (fun i w => wireManager c core i w) w)
    Wiring.blank

/-- `managerPools_`, as `Init` leaves it. -/
def managerPools (c : Config) : Nat → LocalMemoryManager := (wire c).managerPools

/-- `poolFlags_` after `Init`, and the offsets' static initialisers. -/
def init (c : Config) : GlobalMemoryManager := ⟨(wire c).poolFlags, -1, -1⟩

/-- `memoryPools_` and `poolsPerCore_` after `Init`. -/
def initLists (c : Config) : ListId → MemoryLinkedListManager :=
  forRange (c.coreN * (c.coreN + 1) * c.poolN)
    (fun i lists => Function.update lists (.memoryPools i) .init) (fun _ => .init)

theorem initLists_eq (c : Config) : initLists c = fun _ => .init := by
  refine forRange_invariant (fun _ lists => lists = fun _ => MemoryLinkedListManager.init) rfl ?_
  rintro i - lists rfl
  exact Function.update_eq_self _ _

/-- The number of managers. -/
def managerN (c : Config) : Nat := c.coreN * c.poolN

/-- Manager `j` in closed form. -/
def wired (c : Config) (j : Nat) : LocalMemoryManager where
  core := j / c.poolN
  coreN := c.coreN
  mallocList := .memoryPools (j * (c.coreN + 1))
  freeLists k := if k < c.coreN then .memoryPools (j * (c.coreN + 1) + 1 + k) else .nullptr

section Wiring

variable {c : Config} {core i j j' k : Nat}

theorem slot_div (hi : i < c.poolN) : (c.poolN * core + i) / c.poolN = core := by
  rw [Nat.mul_add_div c.poolN_pos, Nat.div_eq_of_lt hi, Nat.add_zero]

theorem slot_mod (hi : i < c.poolN) : (c.poolN * core + i) % c.poolN = i := by
  rw [Nat.mul_add_mod, Nat.mod_eq_of_lt hi]

theorem slot_lt (hcore : core < c.coreN) (hi : i < c.poolN) :
    c.poolN * core + i < managerN c := by
  have hle : (core + 1) * c.poolN ≤ c.coreN * c.poolN := Nat.mul_le_mul_right _ hcore
  rw [Nat.succ_mul, Nat.mul_comm] at hle
  unfold managerN
  omega

theorem div_lt_coreN (hj : j < managerN c) : j / c.poolN < c.coreN :=
  (Nat.div_lt_iff_lt_mul c.poolN_pos).mpr hj

/-- The manager wired with the counter at its slot's multiple is the closed form. -/
theorem wireManager_manager {w : Wiring} (hi : i < c.poolN)
    (hcnt : w.cnt = (c.poolN * core + i) * (c.coreN + 1)) :
    (wireManager c core i w).managerPools (c.poolN * core + i) = wired c (c.poolN * core + i) := by
  -- the innermost loop fills `free_`
  have hfree : ∀ (m : LocalMemoryManager) n,
      forRange n (fun k m => m.setFree k (.memoryPools (w.cnt + 1 + k))) m =
        ⟨m.core, m.coreN, m.mallocList,
          fun k => if k < n then .memoryPools (w.cnt + 1 + k) else m.freeLists k⟩ := by
    intro m n
    let filled (n : Nat) : LocalMemoryManager := ⟨m.core, m.coreN, m.mallocList,
      fun k => if k < n then .memoryPools (w.cnt + 1 + k) else m.freeLists k⟩
    refine forRange_invariant (fun n m' => m' = filled n) ?_ ?_
    · simp [filled]
    · rintro n - m' rfl
      simp only [filled, LocalMemoryManager.setFree, LocalMemoryManager.mk.injEq, true_and]
      funext k
      by_cases hk : k = n
      · subst hk
        simp
      · have hiff : k < n + 1 ↔ k < n := by omega
        simp [hk, hiff]
  simp only [wireManager, Function.update_self, LocalMemoryManager.setMalloc,
    LocalMemoryManager.setCore]
  rw [hfree]
  simp [wired, slot_div hi, LocalMemoryManager.init, hcnt]

/-- The managers and flags after the rounds before slot `n`. -/
structure Wired (c : Config) (n : Nat) (w : Wiring) : Prop where
  cnt : w.cnt = n * (c.coreN + 1)
  managers : ∀ j < n, w.managerPools j = wired c j
  blank : ∀ j, n ≤ j → w.managerPools j = LocalMemoryManager.init 0
  flags : ∀ j, w.poolFlags j = false

theorem Wired.manager {w : Wiring} (hi : i < c.poolN) (h : Wired c (c.poolN * core + i) w) :
    Wired c (c.poolN * core + i + 1) (wireManager c core i w) where
  cnt := by
    simp only [wireManager, h.cnt, Nat.succ_mul]
    omega
  managers j hj := by
    by_cases hjs : j = c.poolN * core + i
    · rw [hjs]
      exact wireManager_manager hi h.cnt
    · have := h.managers j (by omega)
      simpa [wireManager, hjs] using this
  blank j hj := by
    have hjs : j ≠ c.poolN * core + i := by omega
    simpa [wireManager, hjs] using h.blank j (by omega)
  flags j := by
    by_cases hjs : j = c.poolN * core + i
    · simp [wireManager, hjs]
    · simpa [wireManager, hjs] using h.flags j

theorem wire_wired (c : Config) : Wired c (managerN c) (wire c) := by
  have houter : ∀ w, Wired c (c.poolN * 0) w → Wired c (c.poolN * c.coreN)
      (forRange c.coreN (fun core w => forRange c.poolN (fun i w => wireManager c core i w) w) w) :=
    fun w hw => forRange_invariant (fun core w => Wired c (c.poolN * core) w) hw
      fun core _ w hw => forRange_invariant (fun i w => Wired c (c.poolN * core + i) w) hw
        fun i hi w hw => hw.manager hi
  have hstart : Wired c (c.poolN * 0) Wiring.blank := ⟨by simp [Wiring.blank], by simp, fun _ _ => rfl, fun _ => rfl⟩
  have hend := houter _ hstart
  rwa [Nat.mul_comm] at hend

/-- **The wiring in closed form.** -/
theorem managerPools_eq (hj : j < managerN c) : managerPools c j = wired c j :=
  (wire_wired c).managers j hj

theorem init_poolFlags (c : Config) (j : Nat) : (init c).poolFlags j = false :=
  (wire_wired c).flags j

/-- The core whose blocks a list is for: that of the manager for a `malloc_` list, `k`
for a list `free_[k]` or `poolsPerCore_[k]`. -/
def listCore (c : Config) : ListId → Option Nat
  | .nullptr => none
  | .memoryPools n =>
      if n < managerN c * (c.coreN + 1) then
        some (if n % (c.coreN + 1) = 0 then n / (c.coreN + 1) / c.poolN
          else n % (c.coreN + 1) - 1)
      else none
  | .poolsPerCore k => if k < c.coreN then some k else none

theorem core_manager (hj : j < managerN c) : (managerPools c j).core = j / c.poolN := by
  rw [managerPools_eq hj, wired]

/-- The core of a manager is one of the machine's. -/
theorem core_lt (hj : j < managerN c) : (managerPools c j).core < c.coreN := by
  rw [core_manager hj]
  exact div_lt_coreN hj

theorem coreN_manager (hj : j < managerN c) : (managerPools c j).coreN = c.coreN := by
  rw [managerPools_eq hj, wired]

/-- Behind the last manager the array is blank. -/
theorem coreN_manager_le (c : Config) (j : Nat) : (managerPools c j).coreN ≤ c.coreN := by
  by_cases hj : j < managerN c
  · exact Nat.le_of_eq (coreN_manager hj)
  · have hblank : managerPools c j = LocalMemoryManager.init 0 :=
      (wire_wired c).blank j (Nat.not_lt.mp hj)
    rw [hblank]
    exact Nat.zero_le _

theorem mallocList_manager (hj : j < managerN c) :
    (managerPools c j).mallocList = .memoryPools (j * (c.coreN + 1)) := by
  rw [managerPools_eq hj, wired]

theorem freeLists_manager (hj : j < managerN c) (hk : k < c.coreN) :
    (managerPools c j).freeLists k = .memoryPools (j * (c.coreN + 1) + 1 + k) := by
  rw [managerPools_eq hj, wired]
  exact if_pos hk

/-- The lists of manager `j` lie in `memoryPools_`. -/
theorem list_lt (hj : j < managerN c) (hk : k ≤ c.coreN) :
    j * (c.coreN + 1) + k < managerN c * (c.coreN + 1) := by
  have hle : (j + 1) * (c.coreN + 1) ≤ managerN c * (c.coreN + 1) := Nat.mul_le_mul_right _ hj
  rw [Nat.succ_mul] at hle
  omega

theorem listCore_mallocList (hj : j < managerN c) :
    listCore c (managerPools c j).mallocList = some (managerPools c j).core := by
  have hlt := list_lt (k := 0) hj (Nat.zero_le _)
  rw [mallocList_manager hj, core_manager hj, listCore, if_pos (by omega),
    if_pos (Nat.mul_mod_left _ _), Nat.mul_div_cancel _ (Nat.succ_pos _)]

theorem listCore_freeLists (hj : j < managerN c) (hk : k < c.coreN) :
    listCore c ((managerPools c j).freeLists k) = some k := by
  have hmod : (j * (c.coreN + 1) + 1 + k) % (c.coreN + 1) = 1 + k := by
    rw [Nat.add_assoc, Nat.mul_comm, Nat.mul_add_mod, Nat.mod_eq_of_lt (by omega)]
  have hlt := list_lt (k := 1 + k) hj (by omega)
  rw [freeLists_manager hj hk, listCore, if_pos (by omega), hmod, if_neg (by omega)]
  congr 1
  omega

theorem listCore_pool (hk : k < c.coreN) : listCore c (.poolsPerCore k) = some k := if_pos hk

/-- A list of some core is the `malloc_` or a `free_[k]` of a manager, or a pool. -/
theorem list_cases {l : ListId} (h : listCore c l = some k) :
    (∃ j < managerN c, l = (managerPools c j).mallocList ∧ k = (managerPools c j).core) ∨
    (∃ j < managerN c, k < c.coreN ∧ l = (managerPools c j).freeLists k) ∨
    k < c.coreN ∧ l = .poolsPerCore k := by
  cases l with
  | nullptr => exact absurd h (by simp [listCore])
  | poolsPerCore k' =>
      obtain ⟨hk, heq⟩ := Option.ite_none_right_eq_some.mp h
      obtain rfl := Option.some.inj heq
      exact Or.inr (Or.inr ⟨hk, rfl⟩)
  | memoryPools n =>
      obtain ⟨hn, heq⟩ := Option.ite_none_right_eq_some.mp h
      have hj : n / (c.coreN + 1) < managerN c := (Nat.div_lt_iff_lt_mul (Nat.succ_pos _)).mpr hn
      have hdiv := Nat.div_add_mod n (c.coreN + 1)
      have hmod : n % (c.coreN + 1) < c.coreN + 1 := Nat.mod_lt n (Nat.succ_pos c.coreN)
      rw [Nat.mul_comm] at hdiv
      split at heq
      case isTrue hzero =>
        refine Or.inl ⟨_, hj, ?_, ?_⟩
        · rw [mallocList_manager hj]
          congr 1
          omega
        · rw [core_manager hj]
          exact (Option.some.inj heq).symm
      case isFalse hpos =>
        obtain rfl := Option.some.inj heq
        have hk : n % (c.coreN + 1) - 1 < c.coreN := by omega
        refine Or.inr (Or.inl ⟨_, hj, hk, ?_⟩)
        rw [freeLists_manager hj hk]
        congr 1
        omega

/-- A `malloc_` list is no `free_[k]`. -/
theorem mallocList_ne_freeLists (hj : j < managerN c) (hj' : j' < managerN c) (hk : k < c.coreN) :
    (managerPools c j).mallocList ≠ (managerPools c j').freeLists k := by
  rw [mallocList_manager hj, freeLists_manager hj' hk]
  intro heq
  have hmod := congrArg (· % (c.coreN + 1)) (ListId.memoryPools.inj heq)
  simp only [Nat.mul_mod_left] at hmod
  rw [Nat.add_assoc, Nat.mul_comm, Nat.mul_add_mod, Nat.mod_eq_of_lt (by omega)] at hmod
  omega

/-- A `malloc_` pointer never points to a pool, whatever the index. -/
theorem mallocList_ne_pool : (managerPools c j).mallocList ≠ .poolsPerCore k := by
  let P : Wiring → Prop := fun w => ∀ j, (w.managerPools j).mallocList ≠ .poolsPerCore k
  have hfree : ∀ (m : LocalMemoryManager) (f : Nat → ListId) n,
      (forRange n (fun k m => m.setFree k (f k)) m).mallocList = m.mallocList :=
    fun m f n => forRange_invariant
      (fun _ (m' : LocalMemoryManager) => m'.mallocList = m.mallocList) rfl fun _ _ _ hm => hm
  have hround : ∀ core i w, P w → P (wireManager c core i w) := by
    intro core i w hw j
    by_cases hj : j = c.poolN * core + i
    · simp only [wireManager, hj, Function.update_self, hfree]
      exact ListId.noConfusion
    · simpa [wireManager, hj] using hw j
  have hend : P (wire c) := forRange_invariant (fun _ w => P w)
    (fun _ => ListId.noConfusion) fun _ _ _ hw =>
      forRange_invariant (fun _ w => P w) hw fun _ _ _ hw => hround _ _ _ hw
  exact hend j

theorem freeLists_ne_pool {n : Nat} (hj : j < managerN c) (hk : k < c.coreN) :
    (managerPools c j).freeLists k ≠ .poolsPerCore n := by
  rw [freeLists_manager hj hk]
  exact ListId.noConfusion

/-- Different managers share no list. -/
theorem freeLists_inj (hj : j < managerN c) (hj' : j' < managerN c) {k' : Nat} (hk : k < c.coreN)
    (hk' : k' < c.coreN) (heq : (managerPools c j).freeLists k = (managerPools c j').freeLists k') :
    j = j' ∧ k = k' := by
  rw [freeLists_manager hj hk, freeLists_manager hj' hk'] at heq
  have hsum := ListId.memoryPools.inj heq
  have hdiv : ∀ j k, k < c.coreN → (j * (c.coreN + 1) + 1 + k) / (c.coreN + 1) = j := by
    intro j k hk
    rw [Nat.add_assoc, Nat.mul_comm, Nat.mul_add_div (Nat.succ_pos _),
      Nat.div_eq_of_lt (by omega), Nat.add_zero]
  have hjj : j = j' := by rw [← hdiv j k hk, hsum, hdiv j' k' hk']
  subst hjj
  exact ⟨rfl, by omega⟩

theorem mallocList_inj (hj : j < managerN c) (hj' : j' < managerN c)
    (heq : (managerPools c j).mallocList = (managerPools c j').mallocList) : j = j' := by
  rw [mallocList_manager hj, mallocList_manager hj'] at heq
  exact Nat.eq_of_mul_eq_mul_right (Nat.succ_pos _) (ListId.memoryPools.inj heq)

end Wiring

/-! ### Leasing -/

/-- `offset = (offset + 1) % n`. -/
def nextOffset (offset : Int) (n : Nat) : Int := (offset + 1).tmod n

/-- `(offset + i) % n`. -/
def rotate (offset : Int) (i n : Nat) : Nat := ((offset + i).tmod n).toNat

/-- `AllocLocalMemoryManager`: the index in `managerPools_` of the manager leased,
`none` for `nullptr`. -/
def allocLocalMemoryManager (c : Config) (g : GlobalMemoryManager) (core : Nat) :
    Option Nat × GlobalMemoryManager :=
  let offset := nextOffset g.allocOffset c.poolN
  let g := { g with allocOffset := offset }
  let found := (List.range c.poolN).findSome? fun i =>
    let index := c.poolN * core + rotate offset i c.poolN
    if !g.poolFlags index then some index else none
  match found with
  | some index => (some index, { g with poolFlags := Function.update g.poolFlags index true })
  | none => (none, g)

/-- The slots `(core, i)` in the order `FreeLocalMemoryManager` looks at them. -/
def scanOrder (c : Config) (offset : Int) : List (Nat × Nat) :=
  (List.range c.coreN).flatMap fun j =>
    (List.range c.poolN).map fun i => (rotate offset j c.coreN, i)

/-- The innermost step of `FreeLocalMemoryManager`: manager `m`, in slot `i` of its
core, hands its blocks of core `k` to slot `ii` of that core if it is idle. -/
def handBackTo (c : Config) (g : GlobalMemoryManager) (m i k ii : Nat) (s : Store ListId) :
    Store ListId :=
  if i = ii then s
  else if !g.poolFlags (c.poolN * k + ii) then
    (managerPools c (c.poolN * k + ii)).join s k (managerPools c m)
  else s

/-- The two inner loops of `FreeLocalMemoryManager`. -/
def handBack (c : Config) (g : GlobalMemoryManager) (m i : Nat) (s : Store ListId) :
    Store ListId :=
  forRange c.coreN (fun k s => forRange c.poolN (fun ii s => handBackTo c g m i k ii s) s) s

/-- `FreeLocalMemoryManager(&managerPools_[m])`. -/
def freeLocalMemoryManager (c : Config) (g : GlobalMemoryManager) (s : Store ListId) (m : Nat) :
    GlobalMemoryManager × Store ListId :=
  let offset := nextOffset g.freeOffset c.coreN
  let g := { g with freeOffset := offset }
  let found := (scanOrder c offset).find? fun slot =>
    g.poolFlags (c.poolN * slot.1 + slot.2) && decide (c.poolN * slot.1 + slot.2 = m)
  match found with
  | some (core, i) =>
      ({ g with poolFlags := Function.update g.poolFlags (c.poolN * core + i) false },
        handBack c g m i s)
  | none => (g, s)

section Leasing

variable {c : Config} {g : GlobalMemoryManager} {core m n : Nat} {offset : Int}

theorem nextOffset_bounds (hoff : -1 ≤ offset) (hn : 0 < n) :
    0 ≤ nextOffset offset n ∧ nextOffset offset n < n := by
  rw [nextOffset, Int.tmod_eq_emod_of_nonneg (by omega)]
  exact ⟨Int.emod_nonneg _ (by omega), Int.emod_lt_of_pos _ (by omega)⟩

theorem rotate_lt {i : Nat} (hoff : 0 ≤ offset) (hn : 0 < n) : rotate offset i n < n := by
  have hmod := Int.emod_lt_of_pos (offset + i) (show (0 : Int) < n by omega)
  have hnonneg := Int.emod_nonneg (offset + i) (show (n : Int) ≠ 0 by omega)
  rw [rotate, Int.tmod_eq_emod_of_nonneg (by omega)]
  omega

/-- **A full turn visits every slot**, from whatever offset. -/
theorem exists_rotate {t : Nat} (hoff : 0 ≤ offset) (hoff' : offset < n) (ht : t < n) :
    ∃ i < n, rotate offset i n = t := by
  by_cases hle : offset ≤ t
  · refine ⟨t - offset.toNat, by omega, ?_⟩
    have hsum : offset + ((t - offset.toNat : Nat) : Int) = t := by omega
    rw [rotate, hsum, Int.tmod_eq_emod_of_nonneg (by omega), Int.emod_eq_of_lt (by omega) (by omega)]
    omega
  · refine ⟨t + n - offset.toNat, by omega, ?_⟩
    have hsum : offset + ((t + n - offset.toNat : Nat) : Int) = t + n := by omega
    rw [rotate, hsum, Int.tmod_eq_emod_of_nonneg (by omega), Int.add_emod_right,
      Int.emod_eq_of_lt (by omega) (by omega)]
    omega

/-- **`AllocLocalMemoryManager`** leases an idle slot of the core, whatever the offset,
and fails only when there is none. -/
theorem allocLocalMemoryManager_spec (hoff : -1 ≤ g.allocOffset) (core : Nat) :
    (∃ i < c.poolN, g.poolFlags (c.poolN * core + i) = false ∧
      allocLocalMemoryManager c g core = (some (c.poolN * core + i),
        { g with
          allocOffset := nextOffset g.allocOffset c.poolN
          poolFlags := Function.update g.poolFlags (c.poolN * core + i) true })) ∨
    ((∀ i < c.poolN, g.poolFlags (c.poolN * core + i) = true) ∧
      allocLocalMemoryManager c g core =
        (none, { g with allocOffset := nextOffset g.allocOffset c.poolN })) := by
  obtain ⟨hlow, hhigh⟩ := nextOffset_bounds hoff c.poolN_pos
  rw [allocLocalMemoryManager]
  dsimp only
  split
  case h_1 index hfound =>
    obtain ⟨i, -, hi⟩ := List.exists_of_findSome?_eq_some hfound
    split at hi
    case isTrue hidle =>
      obtain rfl := Option.some.inj hi
      exact Or.inl ⟨_, rotate_lt hlow c.poolN_pos, by simpa using hidle, rfl⟩
    · exact absurd hi (by simp)
  case h_2 hnone =>
    refine Or.inr ⟨fun t ht => ?_, rfl⟩
    obtain ⟨i, hi, hrot⟩ := exists_rotate hlow hhigh ht
    have hbusy := List.findSome?_eq_none_iff.mp hnone i (List.mem_range.mpr hi)
    rw [hrot] at hbusy
    simpa using hbusy

/-- **`FreeLocalMemoryManager`** finds a leased manager and clears exactly its flag. -/
theorem freeLocalMemoryManager_spec {s : Store ListId} (hoff : -1 ≤ g.freeOffset)
    (hm : m < managerN c) (hleased : g.poolFlags m = true) :
    freeLocalMemoryManager c g s m =
      ({ g with
          freeOffset := nextOffset g.freeOffset c.coreN
          poolFlags := Function.update g.poolFlags m false },
        handBack c { g with freeOffset := nextOffset g.freeOffset c.coreN } m (m % c.poolN) s) := by
  obtain ⟨hlow, hhigh⟩ := nextOffset_bounds hoff c.coreN_pos
  have hslot : c.poolN * (m / c.poolN) + m % c.poolN = m := Nat.div_add_mod m c.poolN
  obtain ⟨j, hj, hrot⟩ := exists_rotate hlow hhigh (div_lt_coreN hm)
  have hmem : (m / c.poolN, m % c.poolN) ∈ scanOrder c (nextOffset g.freeOffset c.coreN) :=
    List.mem_flatMap.mpr ⟨j, List.mem_range.mpr hj, List.mem_map.mpr
      ⟨m % c.poolN, List.mem_range.mpr (Nat.mod_lt _ c.poolN_pos), by rw [hrot]⟩⟩
  rw [freeLocalMemoryManager]
  dsimp only
  split
  case h_1 core i hfound =>
    have hhit := List.find?_some hfound
    have hin := List.mem_of_find?_eq_some hfound
    simp only [Bool.and_eq_true, decide_eq_true_eq] at hhit
    have hi : i < c.poolN := by
      simp only [scanOrder, List.mem_flatMap, List.mem_map, List.mem_range, Prod.mk.injEq] at hin
      obtain ⟨-, -, i', hi', -, rfl⟩ := hin
      exact hi'
    rw [← hhit.2, slot_mod hi]
  case h_2 hnone =>
    have hmiss := List.find?_eq_none.mp hnone _ hmem
    simp only [hslot, hleased, decide_true, Bool.and_self, not_true_eq_false] at hmiss

end Leasing

/-! ### What is handed back -/

section HandBack

variable {c : Config} {g : GlobalMemoryManager} {N : Set Nat} {s : Store ListId}
  {q : QueueId → List Nat} {m i k ii : Nat} {l : ListId}

/-- What the header of a block on a queue must say: core and class. -/
def queueTag (c : Config) (k : QueueId) : Option Nat × SizeClass := (listCore c k.1, k.2)

theorem queueTag_inj {k k' : QueueId} (h : queueTag c k = queueTag c k') :
    listCore c k.1 = listCore c k'.1 ∧ k.2 = k'.2 :=
  Prod.mk.inj h

/-- The lists `FreeLocalMemoryManager(m)` works on: the `free_` lists of `m` and the
`malloc_` lists of idle managers. -/
def HandBackList (c : Config) (g : GlobalMemoryManager) (m : Nat) (l : ListId) : Prop :=
  (∃ k < c.coreN, l = (managerPools c m).freeLists k) ∨
    ∃ j < managerN c, g.poolFlags j = false ∧ l = (managerPools c j).mallocList

theorem handBackTo_lists (hk : k < c.coreN) (hii : ii < c.poolN)
    (hl : ¬ HandBackList c g m l) : (handBackTo c g m i k ii s).lists l = s.lists l := by
  unfold handBackTo
  split
  · rfl
  · split
    case isTrue hidle =>
      rw [LocalMemoryManager.join]
      refine Store.join_lists_of_ne ?_ ?_
      · rintro rfl
        exact hl (Or.inr ⟨_, slot_lt hk hii, by simpa using hidle, rfl⟩)
      · rintro rfl
        exact hl (Or.inl ⟨k, hk, rfl⟩)
    · rfl

/-- No cache of another list is assigned. -/
theorem handBack_lists (hl : ¬ HandBackList c g m l) :
    (handBack c g m i s).lists l = s.lists l :=
  forRange_invariant (fun _ (s' : Store ListId) => s'.lists l = s.lists l) rfl fun _ hk _ hs' =>
    forRange_invariant (fun _ (s'' : Store ListId) => s''.lists l = s.lists l) hs'
      fun _ hii _ hs'' => (handBackTo_lists hk hii hl).trans hs''

/-- The queues after a hand-back: every block is still on a list of its core and
class, and every list outside `HandBackList` holds what it held. -/
structure HandedBack (c : Config) (g : GlobalMemoryManager) (m : Nat) (q q' : QueueId → List Nat) :
    Prop where
  reshuffle : Reshuffle (queueTag c) q q'
  frame : ∀ l, ¬ HandBackList c g m l → ∀ i, q' (l, i) = q (l, i)

theorem handBackTo_moved (hm : m < managerN c) (hk : k < c.coreN) (hii : ii < c.poolN)
    {q' : QueueId → List Nat} {s' : Store ListId} (h : Moved N s s' q') (hq : HandedBack c g m q q') :
    ∃ q'', Moved N s (handBackTo c g m i k ii s') q'' ∧ HandedBack c g m q q'' := by
  unfold handBackTo
  split
  · exact ⟨q', h, hq⟩
  · split
    case isTrue hidle =>
      have hslot := slot_lt hk hii
      have hidle : g.poolFlags (c.poolN * k + ii) = false := by simpa using hidle
      have hne := mallocList_ne_freeLists hslot hm hk
      have htag : ∀ i, queueTag c ((managerPools c (c.poolN * k + ii)).mallocList, i) =
          queueTag c ((managerPools c m).freeLists k, i) := by
        intro i
        rw [queueTag, queueTag, listCore_mallocList hslot, listCore_freeLists hm hk,
          core_manager hslot, slot_div hii]
      refine ⟨_, Sound.trans h (h.sound.join hne), ?_, ?_⟩
      · exact hq.reshuffle.trans (Rep.reshuffle_joined htag)
      · intro l hl i
        have hl₁ : l ≠ (managerPools c (c.poolN * k + ii)).mallocList := by
          rintro rfl
          exact hl (Or.inr ⟨_, hslot, hidle, rfl⟩)
        have hl₂ : l ≠ (managerPools c m).freeLists k := by
          rintro rfl
          exact hl (Or.inl ⟨k, hk, rfl⟩)
        rw [Rep.joined, if_neg hl₁, if_neg hl₂]
        exact hq.frame l hl i
    · exact ⟨q', h, hq⟩

/-- **A hand-back** moves blocks from `m`'s free lists to idle managers of the same
core, and nothing else. -/
theorem handBack_moved (hm : m < managerN c) (h : Sound N s q) :
    ∃ q', Moved N s (handBack c g m i s) q' ∧ HandedBack c g m q q' :=
  forRange_invariant (fun _ s' => ∃ q', Moved N s s' q' ∧ HandedBack c g m q q')
    ⟨q, h.refl, Reshuffle.refl q, fun _ _ _ => rfl⟩ fun _ hk _ hs' =>
      forRange_invariant (fun _ s'' => ∃ q', Moved N s s'' q' ∧ HandedBack c g m q q') hs'
        fun _ hii _ ⟨_, hmoved, hq⟩ => handBackTo_moved hm hk hii hmoved hq

end HandBack

end GlobalMemoryManager

end FCMalloc
