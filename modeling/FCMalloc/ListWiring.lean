import FCMalloc.GlobalMemoryManager
import Mathlib.Data.Set.Function

/-!
# FCMalloc.ListWiring

No two managers share a list.

`GlobalMemoryManager::Init` deals the elements of one array out to the managers with a counter
that runs over three nested loops. `init_wiresApart` says that this is a bijection between the
list pointers of all managers and the elements of the array, for every number of cores and slots,
and that each element is initialised and empty when it is dealt out.

`Setup` adds to the wiring what `Init` does to the array before it; `setup_wiring` connects the
two. The products of `Init` are exact, as they are in the source while they fit an `int`.
-/

namespace FCMalloc

namespace GlobalMemoryManager

/-- The arrays and the counter of `Init`. An element of `memoryPools_` is `none` until its own
`Init` has run. `handed` is history: the elements that `SetMalloc` and `SetFree` were given the
addresses of, in order, each with what it was at that moment. -/
structure Setup where
  memoryPools : Nat → Option MemoryLinkedListManager
  wiring : Wiring
  handed : List (Nat × Option MemoryLinkedListManager)

namespace Setup

/-- `memoryPools_[i].Init(coreN_)`. -/
def initPool (i : Nat) (s : Setup) : Setup :=
  { s with memoryPools := Function.update s.memoryPools i (some .init) }

/-- One round of the two outer loops, `wireManager`: one `SetMalloc` and `coreN_` times
`SetFree`. -/
def wireManager (c : Config) (core i : Nat) (s : Setup) : Setup :=
  let cnt := s.wiring.cnt
  let given := (cnt + 0) :: (List.range c.coreN).map fun k => cnt + 1 + k
  { s with
    wiring := GlobalMemoryManager.wireManager c core i s.wiring
    handed := s.handed ++ given.map fun n => (n, s.memoryPools n) }

end Setup

/-- `npool`. -/
def npool (c : Config) : Nat := c.coreN * (c.coreN + 1) * c.poolN

/-- The loops of `Init`: over `memoryPools_`, and over the cores and their slots. -/
def setup (c : Config) : Setup :=
  let s := forRange (npool c) Setup.initPool ⟨fun _ => none, Wiring.blank, []⟩
  forRange c.coreN (fun core s => forRange c.poolN (fun i s => s.wireManager c core i) s) s

/-- The manager that `Init` leaves in slot `i` of `core`. -/
def manager (c : Config) (core i : Nat) : LocalMemoryManager :=
  (setup c).wiring.managerPools (c.poolN * core + i)

/-- A list pointer of a manager: `malloc_`, or one of the `free_[k]`. -/
def heldList (m : LocalMemoryManager) : Option Nat → ListId
  | none => m.mallocList
  | some k => m.freeLists k

/-- The addresses of the elements of `memoryPools_`. -/
def arrayLists (c : Config) : Set ListId := { l | ∃ n < npool c, l = .memoryPools n }

/-- **What `Init` promises**: every manager is for its core, the list pointers of all managers are
the elements of the array, each once, and every element was initialised and empty when its address
was handed out. -/
structure WiresApart (c : Config) : Prop where
  core : ∀ core < c.coreN, ∀ i < c.poolN, (manager c core i).core = core
  bijective : Set.BijOn
    (fun p : Fin c.coreN × Fin c.poolN × Option (Fin c.coreN) =>
      heldList (manager c p.1 p.2.1) (p.2.2.map Fin.val))
    Set.univ (arrayLists c)
  handed : (setup c).handed =
    (List.range (npool c)).map fun n => (n, some MemoryLinkedListManager.init)

section Setup

variable {c : Config} {core i j n : Nat} {s : Setup}

/-- The setup leaves the wiring of the model of `Init`. -/
theorem setup_wiring (c : Config) : (setup c).wiring = wire c := by
  have hpools : (forRange (npool c) Setup.initPool ⟨fun _ => none, Wiring.blank, []⟩).wiring =
      Wiring.blank :=
    forRange_invariant (fun _ (s : Setup) => s.wiring = Wiring.blank) rfl fun _ _ _ hs => hs
  have hloops : (setup c).wiring =
      forRange c.coreN (fun core w => forRange c.poolN (fun i w => wireManager c core i w) w)
        (forRange (npool c) Setup.initPool ⟨fun _ => none, Wiring.blank, []⟩).wiring :=
    forRange_map Setup.wiring
      (fun _ s => forRange_map Setup.wiring (fun _ _ => rfl) c.poolN s) c.coreN _
  rw [hloops, hpools, wire]

theorem manager_eq (core i : Nat) : manager c core i = managerPools c (c.poolN * core + i) := by
  rw [manager, setup_wiring, managerPools]

theorem npool_eq (c : Config) : npool c = managerN c * (c.coreN + 1) := by
  rw [npool, managerN, Nat.mul_right_comm]

/-- Every element of the array is initialised and empty. -/
def PoolsReady (c : Config) (s : Setup) : Prop :=
  ∀ n < npool c, s.memoryPools n = some MemoryLinkedListManager.init

/-- The loop over the array reaches all of it before the first manager is wired. -/
theorem initPools_ready (s : Setup) : PoolsReady c (forRange (npool c) Setup.initPool s) := by
  refine forRange_invariant
    (fun i (s : Setup) => ∀ n < i, s.memoryPools n = some MemoryLinkedListManager.init)
    (fun n hn => absurd hn (Nat.not_lt_zero n)) ?_
  intro i _ s hs n hn
  by_cases hni : n = i
  · subst hni
    exact Function.update_self _ _ _
  · have hkept : (s.initPool i).memoryPools n = s.memoryPools n := Function.update_of_ne hni _ _
    rw [hkept]
    exact hs n (by omega)

/-- The rounds before slot `j`: the counter has dealt out the elements below it, in order, and each
was ready. -/
structure Dealt (c : Config) (j : Nat) (s : Setup) : Prop where
  ready : PoolsReady c s
  cnt : s.wiring.cnt = j * (c.coreN + 1)
  handed : s.handed =
    (List.range (j * (c.coreN + 1))).map fun n => (n, some MemoryLinkedListManager.init)

/-- One manager takes the next `coreN_ + 1` elements. -/
theorem Dealt.manager (hj : c.poolN * core + i < managerN c)
    (h : Dealt c (c.poolN * core + i) s) :
    Dealt c (c.poolN * core + i + 1) (s.wireManager c core i) where
  ready := h.ready
  cnt := by
    simp only [Setup.wireManager, GlobalMemoryManager.wireManager, h.cnt, Nat.succ_mul]
    omega
  handed := by
    -- `cnt + 0` and the `cnt + 1 + k` are the elements from `cnt` on
    have hgiven : (s.wiring.cnt + 0) :: (List.range c.coreN).map (fun k => s.wiring.cnt + 1 + k) =
        (List.range (c.coreN + 1)).map (s.wiring.cnt + ·) := by
      rw [List.range_succ_eq_map, List.map_cons, List.map_map]
      congr 1
      refine List.map_congr_left fun k _ => ?_
      show s.wiring.cnt + 1 + k = s.wiring.cnt + (k + 1)
      omega
    have hready : ∀ k ∈ List.range (c.coreN + 1),
        s.memoryPools (s.wiring.cnt + k) = some MemoryLinkedListManager.init := by
      intro k hk
      have hlt := list_lt hj (Nat.le_of_lt_succ (List.mem_range.mp hk))
      rw [← npool_eq, ← h.cnt] at hlt
      exact h.ready _ hlt
    let ready (n : Nat) : Nat × Option MemoryLinkedListManager := (n, some .init)
    calc (s.wireManager c core i).handed
        = s.handed ++ ((List.range (c.coreN + 1)).map (s.wiring.cnt + ·)).map
            fun n => (n, s.memoryPools n) := by rw [← hgiven]; rfl
      _ = s.handed ++ (List.range (c.coreN + 1)).map fun k => ready (s.wiring.cnt + k) := by
          rw [List.map_map]
          congr 1
          exact List.map_congr_left fun k hk => congrArg (Prod.mk _) (hready k hk)
      _ = (List.range ((c.poolN * core + i + 1) * (c.coreN + 1))).map ready := by
          have hsplit : List.range ((c.poolN * core + i + 1) * (c.coreN + 1)) =
              List.range s.wiring.cnt ++ (List.range (c.coreN + 1)).map (s.wiring.cnt + ·) := by
            rw [Nat.succ_mul, ← h.cnt, List.range_add]
          rw [hsplit, List.map_append, List.map_map, h.handed, ← h.cnt]
          rfl

theorem setup_dealt (c : Config) : Dealt c (managerN c) (setup c) := by
  have hstart : Dealt c (c.poolN * 0)
      (forRange (npool c) Setup.initPool ⟨fun _ => none, Wiring.blank, []⟩) := by
    refine ⟨initPools_ready _, ?_, ?_⟩
    · rw [Nat.mul_zero, Nat.zero_mul]
      exact forRange_invariant (fun _ (s : Setup) => s.wiring.cnt = 0) rfl fun _ _ _ hs => hs
    · rw [Nat.mul_zero, Nat.zero_mul]
      exact forRange_invariant (fun _ (s : Setup) => s.handed = []) rfl fun _ _ _ hs => hs
  have hend : Dealt c (c.poolN * c.coreN) (setup c) :=
    forRange_invariant (fun core s => Dealt c (c.poolN * core) s) hstart fun core hcore _ hs =>
      forRange_invariant (fun i s => Dealt c (c.poolN * core + i) s) hs fun i hi _ hs =>
        hs.manager (slot_lt hcore hi)
  rwa [Nat.mul_comm] at hend

/-- The list pointers of a manager of the array point into `memoryPools_`. -/
theorem heldList_mem (hj : j < managerN c) (k : Option (Fin c.coreN)) :
    heldList (managerPools c j) (k.map Fin.val) ∈ arrayLists c := by
  cases k with
  | none =>
      refine ⟨j * (c.coreN + 1), ?_, mallocList_manager hj⟩
      rw [npool_eq]
      exact list_lt (k := 0) hj (Nat.zero_le _)
  | some k =>
      refine ⟨j * (c.coreN + 1) + 1 + k, ?_, freeLists_manager hj k.isLt⟩
      have hlt := list_lt (k := 1 + k) hj (by omega)
      rw [npool_eq]
      omega

/-- A list pointer belongs to one manager, and is one of its pointers only. -/
theorem heldList_inj {j' : Nat} (hj : j < managerN c) (hj' : j' < managerN c)
    {k k' : Option (Fin c.coreN)} (heq : heldList (managerPools c j) (k.map Fin.val) =
      heldList (managerPools c j') (k'.map Fin.val)) : j = j' ∧ k = k' := by
  cases k with
  | none =>
      cases k' with
      | none => exact ⟨mallocList_inj hj hj' heq, rfl⟩
      | some k' => exact absurd heq (mallocList_ne_freeLists hj hj' k'.isLt)
  | some k =>
      cases k' with
      | none => exact absurd heq.symm (mallocList_ne_freeLists hj' hj k.isLt)
      | some k' =>
          obtain ⟨hjj, hkk⟩ := freeLists_inj hj hj' k.isLt k'.isLt heq
          exact ⟨hjj, congrArg some (Fin.ext hkk)⟩

/-- Every element of the array is a list of some manager. -/
theorem exists_heldList (hn : n < npool c) : ∃ j < managerN c, ∃ k : Option (Fin c.coreN),
    heldList (managerPools c j) (k.map Fin.val) = .memoryPools n := by
  have hcore : ∃ k, listCore c (.memoryPools n) = some k := by
    rw [listCore, if_pos (npool_eq c ▸ hn)]
    exact ⟨_, rfl⟩
  obtain ⟨k, hk⟩ := hcore
  rcases list_cases hk with ⟨j, hj, hl, -⟩ | ⟨j, hj, hkc, hl⟩ | ⟨-, hl⟩
  · exact ⟨j, hj, none, hl.symm⟩
  · exact ⟨j, hj, some ⟨k, hkc⟩, hl.symm⟩
  · exact ListId.noConfusion hl

/-- The slot of a manager is its number divided by the slots of a core. -/
theorem slot_inj {core' i' : Nat} (hi : i < c.poolN) (hi' : i' < c.poolN)
    (heq : c.poolN * core + i = c.poolN * core' + i') : core = core' ∧ i = i' := by
  constructor
  · have hdiv : (c.poolN * core + i) / c.poolN = core := slot_div hi
    rw [← hdiv, heq, slot_div hi']
  · have hmod : (c.poolN * core + i) % c.poolN = i := slot_mod hi
    rw [← hmod, heq, slot_mod hi']

/-- **The wiring of `Init` has no aliasing**, for every number of cores and slots. -/
theorem init_wiresApart (c : Config) : WiresApart c := by
  constructor
  case core =>
    intro core hcore i hi
    rw [manager_eq, core_manager (slot_lt hcore hi), slot_div hi]
  case handed =>
    rw [(setup_dealt c).handed, npool_eq]
  case bijective =>
    refine ⟨?_, ?_, ?_⟩
    · intro p _
      dsimp only
      rw [manager_eq]
      exact heldList_mem (slot_lt p.1.isLt p.2.1.isLt) _
    · rintro ⟨core, i, k⟩ - ⟨core', i', k'⟩ - heq
      dsimp only at heq
      rw [manager_eq, manager_eq] at heq
      obtain ⟨hjj, hkk⟩ := heldList_inj (slot_lt core.isLt i.isLt) (slot_lt core'.isLt i'.isLt) heq
      obtain ⟨hcore, hi⟩ := slot_inj i.isLt i'.isLt hjj
      rw [Fin.ext hcore, Fin.ext hi, hkk]
    · rintro l ⟨n, hn, rfl⟩
      obtain ⟨j, hj, k, hl⟩ := exists_heldList hn
      refine ⟨(⟨j / c.poolN, div_lt_coreN hj⟩, ⟨j % c.poolN, Nat.mod_lt _ c.poolN_pos⟩, k),
        Set.mem_univ _, ?_⟩
      dsimp only
      rw [manager_eq, Nat.div_add_mod]
      exact hl

end Setup

end GlobalMemoryManager

end FCMalloc
