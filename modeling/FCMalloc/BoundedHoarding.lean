import FCMalloc.ClzIndependence
import FCMalloc.LeaseRefinement
import FCMalloc.QueueFrames
import FCMalloc.QueueRefinement
import FCMalloc.SequentialCalls
import Mathlib.Algebra.BigOperators.Group.Finset.Piecewise
import Mathlib.Algebra.Order.BigOperators.Group.Finset

/-!
# FCMalloc.BoundedHoarding

How many blocks of other cores the main thread keeps.

`free` counts the blocks of each class that the main thread frees, and flushes all its remote
lists once a count passes the class's batch: they are empty then (`flush_empties`). Between two
flushes a class has no more blocks on the remote lists than were counted (`Hoards`). No other
thread touches these lists, because their manager is leased to the main thread
(`LeasesInv.exclusive`, `act_frames`).

`realloc` puts the block it leaves on a remote list too, and does not count it. The bound
therefore holds in every run in which the main thread moves blocks of its own core only, and
leases its manager with empty remote lists (`Counted`). Nor may a counter wrap: it does where the
batch is the largest `int`, because no count passes that.
-/

namespace FCMalloc.Machine

open GlobalMemoryManager LocalMemoryManager

/-- `free_[k]` of manager `j` for another core than its own. -/
def RemoteList (c : Config) (j : Nat) (l : ListId) : Prop :=
  ∃ k < c.coreN, k ≠ (managerPools c j).core ∧ l = (managerPools c j).freeLists k

/-- The number of blocks of class `i` on the remote lists of manager `j`. -/
def remoteN (c : Config) (q : QueueId → List Nat) (j : Nat) (i : SizeClass) : Nat :=
  ∑ k ∈ (Finset.range c.coreN).erase (managerPools c j).core,
    (q ((managerPools c j).freeLists k, i)).length

/-- What the counters of the thread that has leased `j` say about its remote lists. While a
flush is under way, the lists it has passed are empty. -/
structure Hoards (c : Config) (j : Nat) (th : Thread) (q : QueueId → List Nat) : Prop where
  counts : ∀ i, 0 ≤ th.cntsPerSize i ∧ th.cntsPerSize i ≤ max 0 (c.nPerSize i)
  counted : (∀ n, .flush j n ∉ th.stack) → ∀ i, (remoteN c q j i : Int) ≤ th.cntsPerSize i
  flushed : ∀ n, .flush j n ∈ th.stack → ∀ k < n, k < c.coreN → k ≠ (managerPools c j).core →
    ∀ i, q ((managerPools c j).freeLists k, i) = []

section Lists

variable {c : Config} {q q' : QueueId → List Nat} {j j' : Nat} {l : ListId} {i : SizeClass}
  {used : ListId → Prop} {th th' : Thread} {carved : List Block} {r : Request} {ptr k n : Nat}
  {g : GlobalMemoryManager}

theorem mem_remote : k ∈ (Finset.range c.coreN).erase (managerPools c j).core ↔
    k ≠ (managerPools c j).core ∧ k < c.coreN := by
  rw [Finset.mem_erase, Finset.mem_range]

/-- Steps on other lists leave the remote ones as they are. -/
theorem remote_of_leaves (h : Leaves used q q') (hout : ∀ l, RemoteList c j l → ¬ used l)
    (hk : k < c.coreN) (hne : k ≠ (managerPools c j).core) :
    q' ((managerPools c j).freeLists k, i) = q ((managerPools c j).freeLists k, i) :=
  h _ (hout _ ⟨k, hk, hne, rfl⟩) i

theorem remoteN_of_leaves (h : Leaves used q q') (hout : ∀ l, RemoteList c j l → ¬ used l) :
    remoteN c q' j i = remoteN c q j i := by
  refine Finset.sum_congr rfl fun k hk => ?_
  obtain ⟨hne, hlt⟩ := mem_remote.mp hk
  rw [remote_of_leaves h hout hlt hne]

theorem remoteN_eq_zero (h : ∀ k < c.coreN, k ≠ (managerPools c j).core →
    q ((managerPools c j).freeLists k, i) = []) : remoteN c q j i = 0 := by
  refine Finset.sum_eq_zero fun k hk => ?_
  obtain ⟨hne, hlt⟩ := mem_remote.mp hk
  rw [h k hlt hne, List.length_nil]

/-- One block more on one list of the manager. -/
theorem remoteN_enqueue (hj : j < managerN c) (hk : k < c.coreN) (a : Nat) (i' : SizeClass) :
    remoteN c (enqueue q ((managerPools c j).freeLists k, i') [a]) j i ≤
      remoteN c q j i + if i = i' then 1 else 0 := by
  let remote := (Finset.range c.coreN).erase (managerPools c j).core
  have hterm : ∀ k' ∈ remote,
      (enqueue q ((managerPools c j).freeLists k, i') [a]
        ((managerPools c j).freeLists k', i)).length ≤
      (q ((managerPools c j).freeLists k', i)).length +
        if k' = k then (if i = i' then 1 else 0) else 0 := by
    intro k' hk'
    obtain ⟨-, hlt⟩ := mem_remote.mp hk'
    rw [enqueue, Function.update_apply]
    split
    case isTrue heq =>
      obtain ⟨hlist, rfl⟩ := Prod.mk.inj heq
      obtain ⟨-, rfl⟩ := freeLists_inj hj hj hlt hk hlist
      rw [if_pos rfl, if_pos rfl, List.length_append, List.length_singleton]
    case isFalse => exact Nat.le_add_right _ _
  calc remoteN c (enqueue q ((managerPools c j).freeLists k, i') [a]) j i
      ≤ ∑ k' ∈ remote, ((q ((managerPools c j).freeLists k', i)).length +
          if k' = k then (if i = i' then 1 else 0) else 0) := Finset.sum_le_sum hterm
    _ = remoteN c q j i + ∑ k' ∈ remote, if k' = k then (if i = i' then 1 else 0) else 0 :=
        Finset.sum_add_distrib
    _ ≤ remoteN c q j i + if i = i' then 1 else 0 := by
        refine Nat.add_le_add_left ?_ _
        rw [Finset.sum_ite_eq']
        split
        · exact Nat.le_refl _
        · exact Nat.zero_le _

/-- No `Malloc` works on a remote list, whoever's it is. -/
theorem RemoteList.not_mallocList (h : RemoteList c j l) (hj : j < managerN c)
    (hj' : j' < managerN c) : ¬ MallocList c j' l := by
  obtain ⟨k, hk, hne, rfl⟩ := h
  have hcore : (managerPools c j').core < c.coreN := core_lt hj'
  intro hl
  rcases hl with heq | heq | heq
  · exact mallocList_ne_freeLists hj' hj hk heq.symm
  · obtain ⟨rfl, rfl⟩ := freeLists_inj hj hj' hk hcore heq
    exact hne rfl
  · exact freeLists_ne_pool hj hk heq

/-- Only the holder of a manager frees to its lists. -/
theorem RemoteList.freesTo (h : RemoteList c j l) (hj : j < managerN c) (hj' : j' < managerN c)
    (hcores : ∀ b ∈ carved, b.core < c.coreN) (hto : FreesTo c carved j' ptr l) :
    j' = j ∧ ∃ b ∈ carved, b.body = ptr ∧ b.core ≠ (managerPools c j).core := by
  obtain ⟨k, hk, hne, rfl⟩ := h
  obtain ⟨b, hb, hbody, heq⟩ := hto
  obtain ⟨rfl, rfl⟩ := freeLists_inj hj hj' hk (hcores b hb) heq
  exact ⟨rfl, b, hb, hbody, hne⟩

theorem RemoteList.not_handBack (h : RemoteList c j l) (hj : j < managerN c) (hj' : j' < managerN c)
    (hleased : g.poolFlags j = true) (hne : j ≠ j') : ¬ HandBackList c g j' l := by
  obtain ⟨k, hk, -, rfl⟩ := h
  exact Leasing.not_handBackList hj hj' hleased hne (Or.inr ⟨k, hk, rfl⟩)

/-- A flush empties the remote list of its core. -/
theorem flushQueues_remote (hj : j < managerN c) (hk : k < c.coreN)
    (hne : k ≠ (managerPools c j).core) (hn : n < c.coreN) :
    HeapInv.flushQueues (managerPools c j) q n ((managerPools c j).freeLists k, i) =
      if k = n then [] else q ((managerPools c j).freeLists k, i) := by
  unfold HeapInv.flushQueues
  by_cases hkn : k = n
  · subst hkn
    rw [if_pos hne, if_pos rfl]
    exact Rep.joined_emptied (freeLists_ne_pool hj hk)
  · rw [if_neg hkn]
    split
    · exact Rep.joined_of_ne (freeLists_ne_pool hj hk) fun heq =>
        hkn (freeLists_inj hj hj hk hn heq).2
    · rfl

/-- **`AllFreeToCommonMemoryPool`** leaves no block on a remote list. -/
theorem allFree_empties {heap : Process} (h : HeapInv c heap q) (hj : j < managerN c) :
    ∃ q', HeapInv c { heap with
        store := (managerPools c j).allFreeToCommonMemoryPool heap.store } q' ∧
      ∀ i, remoteN c q' j i = 0 := by
  let P : Nat → Store ListId → Prop := fun n store => ∃ q', HeapInv c { heap with store } q' ∧
    ∀ k < n, k ≠ (managerPools c j).core → ∀ i, q' ((managerPools c j).freeLists k, i) = []
  have hrounds : P c.coreN ((managerPools c j).allFreeToCommonMemoryPool heap.store) := by
    rw [LocalMemoryManager.allFreeToCommonMemoryPool, coreN_manager hj]
    refine forRange_invariant P ⟨q, h, fun k hk => absurd hk (Nat.not_lt_zero k)⟩ ?_
    intro n hn store hbefore
    obtain ⟨q', hq', hempty⟩ := hbefore
    refine ⟨_, (hq'.flushCore hj hn).1, fun k hk hne i => ?_⟩
    rw [flushQueues_remote hj (Nat.lt_of_le_of_lt (Nat.le_of_lt_succ hk) hn) hne hn]
    split
    · rfl
    case isFalse hkn => exact hempty k (by omega) hne i
  obtain ⟨q', hq', hempty⟩ := hrounds
  exact ⟨q', hq', fun i => remoteN_eq_zero fun k hk hne => hempty k hk hne i⟩

/-- **A flush that no other thread disturbs** comes to its end with all remote lists empty. -/
theorem flush_empties {w : World} {t ret : Nat} {s : Shared} (h : HeapInv c s.heap q)
    (hj : j < managerN c) (hstack : th.stack = []) :
    ∃ s' q', (w.alone c t s (th.push (.flush j 0))).run c (fun _ _ => true)
        (List.replicate c.coreN (t, .resume ret)) = some (w.alone c t s' th) ∧
      HeapInv c s'.heap q' ∧ ∀ i, remoteN c q' j i = 0 := by
  obtain ⟨q', hq', hempty⟩ := allFree_empties h hj
  have hcores : 0 < (managerPools c j).coreN := by
    rw [coreN_manager hj]
    exact c.coreN_pos
  refine ⟨s.setStore ((managerPools c j).allFreeToCommonMemoryPool s.heap.store), q', ?_, hq',
    hempty⟩
  rw [← coreN_manager hj]
  exact flush_runs hstack hcores

/-- A step on other lists that keeps the counters. -/
theorem Hoards.of_leaves (h : Hoards c j th q) (hleaves : Leaves used q q')
    (hout : ∀ l, RemoteList c j l → ¬ used l) (hcounts : th'.cntsPerSize = th.cntsPerSize)
    (hflush : ∀ n, .flush j n ∈ th'.stack ↔ .flush j n ∈ th.stack) : Hoards c j th' q' where
  counts := by
    rw [hcounts]
    exact h.counts
  counted hnone i := by
    rw [hcounts, remoteN_of_leaves hleaves hout]
    exact h.counted (fun n => (hflush n).not.mp (hnone n)) i
  flushed n hn k hk hlt hne i := by
    rw [remote_of_leaves hleaves hout hlt hne]
    exact h.flushed n ((hflush n).mp hn) k hk hlt hne i

end Lists

/-! ### Counting a free -/

section Counting

variable {c : Config} {q : QueueId → List Nat} {j k ptr a : Nat} {i : SizeClass} {s : Shared}
  {th : Thread}

/-- **A counted free**: one block more and one count more, or a flush begins. -/
theorem Hoards.count (h : Hoards c j th q) (hj : j < managerN c) (hk : k < c.coreN)
    (hready : th.stack = []) (hindex : sizeClass (MemUtil.ptrToSize s.heap.store.mem ptr) = i)
    (hlimit : th.cntsPerSize i < 2 ^ 31 - 1) :
    Hoards c j (countFree c true s th j ptr)
      (enqueue q ((managerPools c j).freeLists k, i) [a]) := by
  have hwrap : i32 (th.cntsPerSize i + 1) = th.cntsPerSize i + 1 := by
    have hpos := (h.counts i).1
    exact i32_of_lt (by omega) (by omega)
  unfold countFree
  dsimp only
  rw [hindex, hwrap]
  split
  case isTrue =>
    constructor
    case counts => exact fun _ => ⟨Int.le_refl 0, Int.le_max_left 0 _⟩
    case counted => exact fun hnone => absurd (List.mem_cons_self) (hnone 0)
    case flushed =>
      intro n hn k' hk'
      simp only [Thread.push, hready, List.mem_singleton, Frame.flush.injEq] at hn
      omega
  case isFalse hle =>
    rw [Function.update_self] at hle
    constructor
    case counts =>
      intro i'
      obtain ⟨hpos, hbound⟩ := h.counts i'
      dsimp only
      rw [Function.update_apply]
      split
      case isTrue heq =>
        subst heq
        have hlimit : th.cntsPerSize i' + 1 ≤ c.nPerSize i' :=
          Int.not_lt.mp fun hlt => hle ⟨rfl, hlt⟩
        omega
      case isFalse => exact ⟨hpos, hbound⟩
    case counted =>
      intro _ i'
      have hbefore := h.counted (by simp [hready]) i'
      have hmore := remoteN_enqueue (q := q) (i := i') hj hk a i
      dsimp only
      rw [Function.update_apply]
      split
      case isTrue heq =>
        subst heq
        rw [if_pos rfl] at hmore
        omega
      case isFalse hne =>
        rw [if_neg hne] at hmore
        omega
    case flushed => exact fun n hn => absurd (hready ▸ hn) List.not_mem_nil

/-- **A round of a flush**: one list more is empty, and after the last all are. -/
theorem Hoards.round {n : Nat} (h : Hoards c j th q) (hj : j < managerN c)
    (hn : n < c.coreN) (hstack : th.stack = [.flush j n]) :
    Hoards c j
      (if n + 1 < c.coreN then { th with stack := [] }.push (.flush j (n + 1))
        else { th with stack := [] })
      (HeapInv.flushQueues (managerPools c j) q n) := by
  have hempty : ∀ k ≤ n, k < c.coreN → k ≠ (managerPools c j).core → ∀ i,
      HeapInv.flushQueues (managerPools c j) q n ((managerPools c j).freeLists k, i) = [] := by
    intro k hle hlt hne i
    rw [flushQueues_remote hj hlt hne hn]
    split
    · rfl
    case isFalse hkn =>
      exact h.flushed n (by simp [hstack]) k (Nat.lt_of_le_of_ne hle hkn) hlt hne i
  split
  case isTrue =>
    constructor
    case counts => exact h.counts
    case counted => exact fun hnone => absurd List.mem_cons_self (hnone (n + 1))
    case flushed =>
      intro n' hn' k hk
      obtain ⟨-, rfl⟩ := Frame.flush.inj (List.mem_singleton.mp hn')
      exact hempty k (Nat.le_of_lt_succ hk)
  case isFalse hlast =>
    constructor
    case counts => exact h.counts
    case counted =>
      intro _ i
      rw [remoteN_eq_zero fun k hlt hne => hempty k (by omega) hlt hne i]
      exact (h.counts i).1
    case flushed => exact fun _ hn' => absurd hn' List.not_mem_nil

end Counting

/-! ### The main thread -/

/-- A step in which a thread puts blocks on its remote lists, or takes them off. -/
def Action.Stirs (th : Thread) : Action → Prop
  | .free _ | .exit => True
  | .resume _ => ∃ j n, th.stack.head? = some (.flush j n)
  | _ => False

/-- A `realloc` under way that will move its block leaves one of the manager's own core. -/
def Frame.Home (c : Config) (carved : List Block) (j : Nat) (f : Frame) : Prop :=
  ∀ r, f.request = some r → 0 < c.nPerSize (sizeClass r.size) → ∀ ptr, r.caller.old = some ptr →
    ∃ b ∈ carved, b.body = ptr ∧ b.core = (managerPools c j).core

section Threads

variable {c : Config} {main : Bool} {s s' : Shared} {th th' : Thread} {a : Action} {r : Request}
  {f : Frame} {j : Nat} {carved carved' : List Block}

theorem Frame.Home.mono (h : f.Home c carved j) (hsub : carved ⊆ carved') :
    f.Home c carved' j := by
  intro r hr hbatch ptr hold
  obtain ⟨b, hb, hok⟩ := h r hr hbatch ptr hold
  exact ⟨b, hsub hb, hok⟩

/-- After a step a thread has started, and before it unless the step is its start. -/
theorem act_started (hidle : th.started = false → th.stack = []) (hready : th.ready a = true)
    (hact : act c main s th a = .next s' th') : th'.started = true := by
  by_cases hstart : ∃ core, a = .start core
  · obtain ⟨core, rfl⟩ := hstart
    obtain ⟨-, rfl⟩ := Result.next.inj hact
    rfl
  have hbefore : th.started = true := by
    cases a with
    | start core => exact absurd ⟨core, rfl⟩ hstart
    | resume ret =>
        simp only [Thread.ready, decide_eq_true_eq] at hready
        exact Bool.not_eq_false _ ▸ fun hnot => hready (hidle hnot)
    | exit | malloc | calloc | realloc | free | allFree | store =>
        simp only [Thread.ready, Bool.and_eq_true] at hready
        grind
  obtain hk | ⟨hstart' | rfl, -⟩ := act_lease_cases hready hact
  · exact hk.started.trans hbefore
  · exact absurd hstart' hstart
  · rw [act, threadTerm] at hact
    split at hact
    · obtain ⟨-, rfl⟩ := Result.next.inj hact
      exact hbefore
    · obtain ⟨-, rfl⟩ := Result.next.inj hact
      exact hbefore

/-- Between `start` and `exit`, all other steps keep the counters and begin or end no flush. -/
theorem act_quiet (hquiet : ¬ a.Stirs th) (hstart : ∀ core, a ≠ .start core) (hall : a ≠ .allFree)
    (hact : act c main s th a = .next s' th') : th'.cntsPerSize = th.cntsPerSize ∧
      ∀ j n, .flush j n ∈ th'.stack ↔ .flush j n ∈ th.stack := by
  have hcall : th' = th ∨ (∃ r, th' = th.push (.pool r)) → th'.cntsPerSize = th.cntsPerSize ∧
      ∀ j n, .flush j n ∈ th'.stack ↔ .flush j n ∈ th.stack := by
    intro hcases
    rcases hcases with rfl | ⟨r, rfl⟩
    · exact ⟨rfl, fun _ _ => Iff.rfl⟩
    · exact ⟨rfl, fun _ _ => by simp [Thread.push]⟩
  have hmalloc : ∀ {size caller}, malloc c s th size caller = .next s' th' →
      th' = th ∨ ∃ r, th' = th.push (.pool r) := by
    intro size caller hnext
    obtain ⟨-, -, hth⟩ | ⟨j, -, -, henter⟩ := malloc_next hnext
    · exact Or.inl hth
    · exact (enterMalloc_stack henter).imp id fun hth => ⟨_, hth.1⟩
  cases a with
  | start core => exact absurd rfl (hstart core)
  | allFree => exact absurd rfl hall
  | free | exit => exact absurd trivial hquiet
  | malloc size => exact hcall (hmalloc hact)
  | calloc nmemb size =>
      obtain ⟨-, hth⟩ | ⟨j, -, -, henter⟩ := calloc_next hact
      · exact hcall (Or.inl hth)
      · exact hcall ((enterMalloc_stack henter).imp id fun hth => ⟨_, hth.1⟩)
  | realloc ptr size =>
      obtain ⟨-, hnext⟩ | ⟨-, -, hth, -⟩ | ⟨j, -, -, -, henter⟩ := realloc_next hact
      · exact hcall (hmalloc hnext)
      · exact hcall (Or.inl hth)
      · exact hcall ((enterMalloc_stack henter).imp id fun hth => ⟨_, hth.1⟩)
  | store addr v =>
      obtain ⟨-, rfl⟩ := Result.next.inj hact
      exact ⟨rfl, fun _ _ => Iff.rfl⟩
  | resume ret =>
      rw [act] at hact
      split at hact
      · exact absurd hact (by simp)
      case h_2 f rest hstack =>
        have hf : ∀ j n, f ≠ .flush j n := by
          rintro j n rfl
          exact hquiet ⟨j, n, by simp [hstack]⟩
        obtain rfl | ⟨f', rfl, hfollows⟩ := resume_stack hact
        · refine ⟨rfl, fun j n => ?_⟩
          rw [hstack, List.mem_cons, or_iff_right (hf j n).symm]
        · refine ⟨rfl, fun j n => ?_⟩
          have hf' : f' ≠ .flush j n := by
            rintro rfl
            cases hfollows with
            | flush => exact hf _ _ rfl
          rw [hstack, Thread.push, List.mem_cons, List.mem_cons, or_iff_right (hf j n).symm,
            or_iff_right hf'.symm]

/-- Where the requests of a thread come from. -/
theorem act_request (hf : f ∈ th'.stack) (hr : f.request = some r)
    (hact : act c main s th a = .next s' th') :
    (∃ f' ∈ th.stack, f'.request = some r) ∨ r.caller.old = none ∨
      ∃ ptr, a = .realloc ptr r.size ∧ ptr ≠ 0 ∧
        MemUtil.ptrToSize s.heap.store.mem ptr < r.size ∧ th.lp = some r.manager ∧
        r.caller.old = some ptr := by
  have hcall : ∀ r', enterMalloc c s th r' = .next s' th' →
      (∃ f' ∈ th.stack, f'.request = some r) ∨ r = r' := by
    intro r' henter
    obtain rfl | ⟨rfl, -⟩ := enterMalloc_stack henter
    · exact Or.inl ⟨f, hf, hr⟩
    · rw [Thread.push, List.mem_cons] at hf
      rcases hf with rfl | hf
      · exact Or.inr (Option.some.inj hr).symm
      · exact Or.inl ⟨f, hf, hr⟩
  have hmalloc : ∀ {size}, malloc c s th size .malloc = .next s' th' →
      (∃ f' ∈ th.stack, f'.request = some r) ∨ r.caller.old = none := by
    intro size hnext
    obtain ⟨-, -, rfl⟩ | ⟨j, -, -, henter⟩ := malloc_next hnext
    · exact Or.inl ⟨f, hf, hr⟩
    · refine (hcall _ henter).imp id ?_
      rintro rfl
      rfl
  cases a with
  | malloc size => exact (hmalloc hact).imp id Or.inl
  | calloc nmemb size =>
      obtain ⟨-, rfl⟩ | ⟨j, -, -, henter⟩ := calloc_next hact
      · exact Or.inl ⟨f, hf, hr⟩
      · refine (hcall _ henter).imp id ?_
        rintro rfl
        exact Or.inl rfl
  | realloc ptr size =>
      obtain ⟨-, hnext⟩ | ⟨-, -, rfl, -⟩ | ⟨j, hne, hlt, hlp, henter⟩ := realloc_next hact
      · exact (hmalloc hnext).imp id Or.inl
      · exact Or.inl ⟨f, hf, hr⟩
      · refine (hcall _ henter).imp id ?_
        rintro rfl
        exact Or.inr ⟨ptr, rfl, hne, hlt, hlp, rfl⟩
  | start | exit | free | allFree | store | resume =>
      obtain ⟨hstack, -⟩ | ⟨g, hstack, -, hstarts⟩ | ⟨ret, g, rest, -, hold, -, hnew⟩ :=
        act_stack hact
      · exact Or.inl ⟨f, hstack ▸ hf, hr⟩
      · rw [hstack, List.mem_cons] at hf
        rcases hf with rfl | hf
        · cases hstarts <;> exact absurd hr (by simp [Frame.request])
        · exact Or.inl ⟨f, hf, hr⟩
      · refine Or.inl ?_
        rw [hold]
        obtain hrest | ⟨g', hstack, hfollows⟩ := hnew
        · exact ⟨f, List.mem_cons_of_mem g (hrest ▸ hf), hr⟩
        · rw [hstack, List.mem_cons] at hf
          rcases hf with rfl | hf
          · exact ⟨g, List.mem_cons_self, hfollows.request hr⟩
          · exact ⟨f, List.mem_cons_of_mem g hf, hr⟩

end Threads

/-! ### Runs -/

/-- **A step that keeps the count**: the main thread leases a manager whose remote lists are
empty, where its `realloc` moves a block, that block is of the manager's own core, and where it
frees a block, the counter of the block's class is not at the end of its range. -/
structure Counted [ClzZero] (c : Config) (w : World) (a : Nat × Action) : Prop where
  start : ∀ core, a = (0, .start core) → ∀ j,
    (allocLocalMemoryManager c w.shared.heap.g core).1 = some j →
      ∀ l, RemoteList c j l → ∀ i, w.shared.heap.store.head (l, i) = 0
  realloc : ∀ ptr size, a = (0, .realloc ptr size) → ∀ j, (w.threads 0).lp = some j → ptr ≠ 0 →
    MemUtil.ptrToSize w.shared.heap.store.mem ptr < size → 0 < c.nPerSize (sizeClass size) →
      MemUtil.ptrToCore w.shared.heap.store.mem ptr = (managerPools c j).core
  free : ∀ ptr, a = (0, .free ptr) → ptr ≠ 0 → (w.threads 0).cntsPerSize
    (sizeClass (MemUtil.ptrToSize w.shared.heap.store.mem ptr)) < 2 ^ 31 - 1

/-- **The invariant of the main thread's remote lists.** -/
structure HoardInv (c : Config) (w : World) : Prop where
  leases : LeasesInv c w
  idle : (w.threads 0).started = false →
    (w.threads 0).stack = [] ∧ ∀ i, (w.threads 0).cntsPerSize i = 0
  home : ∀ j, (w.threads 0).lp = some j →
    ∀ f ∈ (w.threads 0).stack, f.Home c w.shared.heap.carved j
  hoards : ∀ j, (w.threads 0).lp = some j → ∀ q, HeapInv c w.shared.heap q →
    Hoards c j (w.threads 0) q

section Runs

variable {c : Config} {base : Nat → Nat} {w w' : World} {t j : Nat} {a : Action} {s : Shared}
  {th : Thread} {q q' : QueueId → List Nat}

/-- The lists in memory determine the queues. -/
theorem queues_unique {heap : Process} (h : HeapInv c heap q) (h' : HeapInv c heap q') : q = q' :=
  h.sound.linked.unique h'.sound.linked

theorem HoardInv.start (hbase : c.FreshBase base) (mem : ByteMemory.Memory) :
    HoardInv c (World.init c base mem) where
  leases := LeasesInv.start hbase mem
  idle _ := ⟨rfl, fun _ => rfl⟩
  home _ hlp := absurd hlp (by simp [World.init, Thread.blank])
  hoards _ hlp := absurd hlp (by simp [World.init, Thread.blank])

/-- A main thread that starts before all others finds empty lists. -/
theorem Counted.first (mem : ByteMemory.Memory) (core : Nat) :
    Counted c (World.init c base mem) (0, .start core) where
  start _ _ _ _ l _ i := congrFun HeapInv.init_head (l, i)
  realloc _ _ heq := absurd heq (by simp)
  free _ heq := absurd heq (by simp)

/-- **Out of reach**: a step that is not the main thread's own freeing, flushing or exit works
on no remote list of its manager. -/
theorem HoardInv.remote_unused (h : HoardInv c w) (hq : HeapInv c w.shared.heap q)
    (hcounted : Counted c w (t, a)) (hquiet : t = 0 → ¬ a.Stirs (w.threads t))
    (hj : (w.threads 0).lp = some j) {l : ListId} (hl : RemoteList c j l) :
    ¬ a.Uses c w.shared (w.threads t) l := by
  have hinv := h.leases.inv
  obtain ⟨hlt, hflag, -, hexclusive⟩ :=
    h.leases.exclusive (Thread.mem_leases.mpr (Or.inl ⟨rfl, hj⟩))
  have hcores : ∀ b ∈ w.shared.heap.carved, b.core < c.coreN := fun b hb =>
    (hq.blocks b hb).core_lt
  -- who has leased the manager is the main thread
  have hmain : ∀ j', (w.threads t).lp = some j' → j' = j → t = 0 := by
    rintro j' hlp rfl
    exact (hexclusive t .own (Thread.mem_leases.mpr (Or.inl ⟨rfl, hlp⟩))).1
  have hmalloc : ∀ j', (w.threads t).lp = some j' → ¬ MallocList c j' l := fun j' hlp =>
    hl.not_mallocList hlt (hinv.leases t j' hlp)
  intro huses
  cases a with
  | start | allFree | store => exact huses
  | malloc | calloc =>
      obtain ⟨j', hlp, hlist⟩ := huses
      exact hmalloc j' hlp hlist
  | realloc ptr size =>
      obtain ⟨j', hlp, hlist | ⟨hne, hgrows, hbatch, hto⟩⟩ := huses
      · exact hmalloc j' hlp hlist
      · obtain ⟨rfl, b, hb, rfl, hcore⟩ := hl.freesTo hlt (hinv.leases t j' hlp) hcores hto
        obtain rfl := hmain j' hlp rfl
        -- the old block would have to be of another core than the manager's
        have hhome := hcounted.realloc _ _ rfl j' hlp hne hgrows hbatch
        rw [hq.ptrToCore hb] at hhome
        exact hcore hhome
  | free ptr =>
      obtain ⟨j', hlp, hto⟩ := huses
      obtain ⟨heq, -⟩ := hl.freesTo hlt (hinv.leases t j' hlp) hcores hto
      exact hquiet (hmain j' hlp heq) trivial
  | exit =>
      obtain ⟨j', hlp, hback⟩ := huses
      exact hl.not_handBack hlt (hinv.leases t j' hlp) hflag
        (fun heq => hquiet (hmain j' hlp heq.symm) trivial) hback
  | resume ret =>
      obtain ⟨f, hhead, hf⟩ := huses
      have hmem : f ∈ (w.threads t).stack := List.mem_of_mem_head? hhead
      have hrequest : ∀ r, f.request = some r → ¬ r.Uses c w.shared.heap.carved l := by
        intro r hr hr'
        obtain ⟨hlp, -⟩ := hinv.locking.requests t f hmem r hr
        rcases hr' with hlist | ⟨hbatch, ptr, hold, hto⟩
        · exact hmalloc r.manager hlp hlist
        · obtain ⟨heq, b, hb, rfl, hcore⟩ := hl.freesTo hlt (hinv.leases t _ hlp) hcores hto
          obtain rfl := hmain r.manager hlp heq
          obtain ⟨b', hb', hbody, hcore'⟩ := h.home j hj f hmem r hr hbatch b.body hold
          obtain rfl := hq.body_inj hb' hb hbody
          exact hcore hcore'
      have hok := hinv.frames t f hmem
      cases f with
      | pool r | allocate r | printing r phase => exact hrequest r rfl hf
      | freeing j' ptr =>
          -- leased for a late `free`, the manager is nobody's own
          obtain ⟨rfl, -⟩ := hl.freesTo hlt hok.1 hcores hf
          have hpurpose := (hexclusive t _ (Thread.mem_leases.mpr (Or.inr ⟨_, hmem, rfl⟩))).2
          exact absurd hpurpose (by simp)
      | release j' =>
          refine hl.not_handBack hlt hok hflag (fun heq => ?_) hf
          subst heq
          have hpurpose := (hexclusive t _ (Thread.mem_leases.mpr (Or.inr ⟨_, hmem, rfl⟩))).2
          exact absurd hpurpose (by simp)
      | flush j' i =>
          obtain ⟨k, hk, -, rfl⟩ := hl
          rcases hf.2 with hpool | hfree
          · exact freeLists_ne_pool hlt hk hpool
          · obtain ⟨heq, -⟩ := freeLists_inj hlt hok.1 hk hok.2 hfree
            have hlp := h.leases.flushing t j' i hmem
            exact hquiet (hmain j' hlp heq.symm) ⟨j', i, hhead⟩

/-- **A step elsewhere** leaves the remote lists as they were. -/
theorem HoardInv.elsewhere (hc : Setting c) (h : HoardInv c w) (hlegal : Legal c w (t, a))
    (hcounted : Counted c w (t, a)) (hquiet : t = 0 → ¬ a.Stirs (w.threads t))
    (hact : act c (mainThread t) w.shared (w.threads t) a = .next s th)
    (hj : (w.threads 0).lp = some j) (hheap : HeapInv c s.heap q') :
    ∃ q, Hoards c j (w.threads 0) q ∧ Leaves (fun l => ¬ RemoteList c j l) q q' := by
  obtain ⟨q, hq⟩ := h.leases.inv.owned
  obtain ⟨q'', hheap', hleaves⟩ := act_frames hc hq (h.leases.inv.leases t)
    (h.leases.inv.frames t) hlegal.act hact
  obtain rfl := queues_unique hheap' hheap
  refine ⟨q, h.hoards j hj q hq.heap, hleaves.mono fun l huses hl => ?_⟩
  exact h.remote_unused hq.heap hcounted hquiet hj hl huses

/-- The main thread starts with empty remote lists. -/
theorem HoardInv.hoards_start (h : HoardInv c w) {core : Nat}
    (hcounted : Counted c w (0, .start core))
    (hready : (w.threads 0).ready (.start core) = true)
    (hact : act c (mainThread 0) w.shared (w.threads 0) (.start core) = .next s th)
    (hj : th.lp = some j) (hheap : HeapInv c s.heap q') : Hoards c j th q' := by
  simp only [Thread.ready, Bool.and_eq_true, Bool.not_eq_true', decide_eq_true_eq] at hready
  obtain ⟨hstack, hzero⟩ := h.idle hready.1
  obtain ⟨rfl, rfl⟩ := Result.next.inj hact
  have hempty : ∀ k < c.coreN, k ≠ (managerPools c j).core → ∀ i,
      q' ((managerPools c j).freeLists k, i) = [] := fun k hk hne i =>
    hheap.sound.linked.head_eq_null_iff.mp (hcounted.start core rfl j hj _ ⟨k, hk, hne, rfl⟩ i)
  constructor
  case counts =>
    intro i
    rw [show _ = (0 : Int) from hzero i]
    exact ⟨Int.le_refl 0, Int.le_max_left 0 _⟩
  case counted =>
    intro _ i
    rw [remoteN_eq_zero fun k hk hne => hempty k hk hne i, show _ = (0 : Int) from hzero i]
    rfl
  case flushed => exact fun n hn => absurd (hstack ▸ hn) List.not_mem_nil

/-- The main thread frees a block. -/
theorem HoardInv.hoards_free (h : HoardInv c w) {ptr : Nat} (hlegal : Legal c w (0, .free ptr))
    (hcounted : Counted c w (0, .free ptr))
    (hready : (w.threads 0).ready (.free ptr) = true)
    (hact : act c (mainThread 0) w.shared (w.threads 0) (.free ptr) = .next s th)
    (hj : th.lp = some j) (hheap : HeapInv c s.heap q') : Hoards c j th q' := by
  simp only [Thread.ready, Bool.and_eq_true, decide_eq_true_eq] at hready
  obtain ⟨q, hq⟩ := h.leases.inv.owned
  obtain ⟨-, rfl, rfl⟩ | ⟨-, hlp, hlate⟩ | ⟨j', hne, hlp, hs, hth⟩ := free_next hact
  · exact h.hoards j hj q' hheap
  · obtain ⟨_, -, rfl, -⟩ := lateFree_next hlate
    exact absurd (hj.symm.trans hlp) (by simp)
  · have hlt := h.leases.inv.leases 0 j' hlp
    obtain ⟨b, hb, rfl⟩ := hq.live_carved ptr (hlegal.act hne)
    have hloose := (hq.live_iff b hb).mp (hlegal.act hne)
    have hfreed : HeapInv c s.heap
        (enqueue q ((managerPools c j').freeLists b.core, sizeClass b.size) [b.addr]) := by
      rw [hs]
      exact hq.heap.free hlt hb hloose
    have hcarved : s.heap.carved = w.shared.heap.carved := by rw [hs]; rfl
    obtain rfl := queues_unique hfreed hheap
    have hsize := hfreed.ptrToSize (hcarved ▸ hb)
    have hsame : j' = j := by
      obtain ⟨cnts, hcount | hcount⟩ := countFree_cases c (mainThread 0) s (w.threads 0) j' b.body
      · rw [hth, hcount] at hj
        exact Option.some.inj (hlp.symm.trans hj)
      · rw [hth, hcount] at hj
        exact Option.some.inj (hlp.symm.trans hj)
    subst hsame
    rw [hth]
    exact (h.hoards j' hlp q hq.heap).count hlt (hq.heap.blocks b hb).core_lt hready.2
      (congrArg sizeClass hsize) (hq.heap.ptrToSize hb ▸ hcounted.free _ rfl hne)

/-- A round of the main thread's flush. -/
theorem HoardInv.hoards_flush (h : HoardInv c w) {ret j' n : Nat}
    (hhead : (w.threads 0).stack.head? = some (.flush j' n))
    (hact : act c (mainThread 0) w.shared (w.threads 0) (.resume ret) = .next s th)
    (hj : th.lp = some j) (hheap : HeapInv c s.heap q') : Hoards c j th q' := by
  obtain ⟨q, hq⟩ := h.leases.inv.owned
  obtain ⟨rest, hstack⟩ := List.head?_eq_some_iff.mp hhead
  have hshape := h.leases.inv.locking.shape 0
  rw [hstack] at hshape
  obtain rfl : rest = [] := by
    cases rest with
    | nil => rfl
    | cons g rest => cases rest <;> exact absurd hshape (by simp [Shape])
  have hmem : .flush j' n ∈ (w.threads 0).stack := by simp [hstack]
  have hlp := h.leases.flushing 0 j' n hmem
  obtain ⟨hlt, hn⟩ : j' < managerN c ∧ n < c.coreN := h.leases.inv.frames 0 _ hmem
  rw [act, hstack] at hact
  obtain ⟨rfl, rfl⟩ := Result.next.inj hact
  obtain rfl := queues_unique (hq.heap.flushCore hlt hn).1 hheap
  have hsame : j' = j := by
    refine Option.some.inj (hlp.symm.trans (hj.symm.trans ?_).symm)
    split <;> rfl
  subst hsame
  rw [coreN_manager hlt]
  exact (h.hoards j' hlp q hq.heap).round hlt hn hstack

/-- **The main thread's own steps.** -/
theorem HoardInv.hoards_main (hc : Setting c) (h : HoardInv c w) (hlegal : Legal c w (0, a))
    (hcounted : Counted c w (0, a)) (hready : (w.threads 0).ready a = true)
    (hact : act c (mainThread 0) w.shared (w.threads 0) a = .next s th) (hj : th.lp = some j)
    (hheap : HeapInv c s.heap q') : Hoards c j th q' := by
  by_cases hstart : ∃ core, a = .start core
  · obtain ⟨core, rfl⟩ := hstart
    exact h.hoards_start hcounted hready hact hj hheap
  by_cases hquiet : a.Stirs (w.threads 0)
  · cases a with
    | free ptr => exact h.hoards_free hlegal hcounted hready hact hj hheap
    | exit =>
        rw [act, threadTerm] at hact
        split at hact
        case h_1 hlp =>
          obtain ⟨rfl, rfl⟩ := Result.next.inj hact
          exact absurd (hj.symm.trans hlp) (by simp)
        case h_2 =>
          obtain ⟨rfl, rfl⟩ := Result.next.inj hact
          exact absurd hj (by simp)
    | resume ret =>
        obtain ⟨j', n, hhead⟩ := hquiet
        exact h.hoards_flush hhead hact hj hheap
    | start | malloc | calloc | realloc | allFree | store => exact absurd hquiet id
  · have hlp : (w.threads 0).lp = some j := by
      obtain hk | ⟨hstart' | rfl, -⟩ := act_lease_cases hready hact
      · exact hk.lp ▸ hj
      · exact absurd hstart' hstart
      · exact absurd trivial hquiet
    obtain ⟨q, hbefore, hleaves⟩ :=
      h.elsewhere hc hlegal hcounted (fun _ => hquiet) hact hlp hheap
    by_cases hall : a = .allFree
    · subst hall
      simp only [Thread.ready, Bool.and_eq_true, decide_eq_true_eq] at hready
      obtain ⟨j', hlp', -, rfl⟩ := allFree_next hact
      obtain rfl := Option.some.inj (hlp.symm.trans hlp')
      constructor
      case counts => exact hbefore.counts
      case counted => exact fun hnone => absurd List.mem_cons_self (hnone 0)
      case flushed =>
        intro n hn k hk
        simp only [Thread.push, hready.2, List.mem_singleton, Frame.flush.injEq] at hn
        omega
    · obtain ⟨hcounts, hflush⟩ := act_quiet hquiet (fun core heq => hstart ⟨core, heq⟩) hall hact
      exact hbefore.of_leaves hleaves (fun l hl hout => hout hl) hcounts (hflush j)

/-- A `realloc` of the main thread that waits has a block of its own core. -/
theorem HoardInv.home_main (h : HoardInv c w) (hlegal : Legal c w (0, a))
    (hcounted : Counted c w (0, a)) (hsub : w.shared.heap.carved ⊆ s.heap.carved)
    (hact : act c (mainThread 0) w.shared (w.threads 0) a = .next s th)
    (hlp : (w.threads 0).lp = some j) {f : Frame} (hf : f ∈ th.stack) :
    f.Home c s.heap.carved j := by
  obtain ⟨q, hq⟩ := h.leases.inv.owned
  intro r hr hbatch ptr hold
  obtain ⟨f', hf', hr'⟩ | hnone | ⟨ptr', rfl, hne, hlt, -, hold'⟩ := act_request hf hr hact
  · exact (h.home j hlp f' hf').mono hsub r hr' hbatch ptr hold
  · exact absurd (hnone.symm.trans hold) (by simp)
  · obtain rfl := Option.some.inj (hold.symm.trans hold')
    obtain ⟨b, hb, rfl⟩ := hq.live_carved ptr (hlegal.act.2 hne)
    refine ⟨b, hsub hb, rfl, ?_⟩
    rw [← hq.heap.ptrToCore hb]
    exact hcounted.realloc b.body r.size rfl j hlp hne hlt hbatch

/-- **Every step that keeps the count.** -/
theorem HoardInv.step (hc : Setting c) (h : HoardInv c w) (hlegal : Legal c w (t, a))
    (hcounted : Counted c w (t, a)) (hstep : w.step c t a = .next w') : HoardInv c w' := by
  have hleases := h.leases.step hc hlegal hstep
  have hsub := (h.leases.inv.step hc hlegal hstep).2.subset
  obtain ⟨hready, -, s, th, hact, rfl⟩ := World.step_next hstep
  by_cases ht : t = 0
  case pos =>
    subst ht
    have hself : (w.commit c 0 s th).threads 0 = th := by
      rw [World.commit_threads, Function.update_self]
    constructor
    case leases => exact hleases
    case idle =>
      rw [hself]
      intro hnot
      exact absurd (act_started (fun hidle => (h.idle hidle).1) hready hact) (by simp [hnot])
    case home =>
      rw [hself]
      intro j hj f hf
      by_cases hlp : (w.threads 0).lp = some j
      · exact h.home_main hlegal hcounted hsub hact hlp hf
      -- only `start` and `exit` change the lease, and they need an empty stack
      obtain hk | ⟨-, -, hempty⟩ := act_lease_cases hready hact
      · exact absurd (hk.lp ▸ hj) hlp
      · exact absurd (hempty ▸ hf) List.not_mem_nil
    case hoards =>
      rw [hself]
      intro j hj q hheap
      exact h.hoards_main hc hlegal hcounted hready hact hj hheap
  case neg =>
    have hother : (w.commit c t s th).threads 0 = w.threads 0 := by
      rw [World.commit_threads, Function.update_of_ne (Ne.symm ht)]
    constructor
    case leases => exact hleases
    case idle =>
      rw [hother]
      exact h.idle
    case home =>
      rw [hother]
      exact fun j hj f hf => (h.home j hj f hf).mono hsub
    case hoards =>
      rw [hother]
      intro j hj q hheap
      obtain ⟨q₀, hbefore, hleaves⟩ := h.elsewhere hc hlegal hcounted (fun heq => absurd heq ht)
        hact hj hheap
      exact hbefore.of_leaves hleaves (fun l hl hout => hout hl) rfl fun _ => Iff.rfl

/-- Whenever the main thread is in no call, no class has more blocks on its remote lists than
a batch. -/
def BoundedHoarding (c : Config) (w : World) : Prop :=
  ∀ j, (w.threads 0).lp = some j → (w.threads 0).stack = [] →
    ∃ q, w.shared.heap.store.Represents q ∧
      ∀ i, (remoteN c q j i : Int) ≤ max 0 (c.nPerSize i)

/-- A step keeps the count whatever `__builtin_clz(0)` is, if it does where that is 32. -/
theorem counted_congr [ClzZero] {a : Nat × Action} (h : OwnershipInv c w)
    (hsettled : SettledInv w) (hlegal : @Legal clzNoted c w a) (hasks : a.2.Asks Settled) :
    Counted c w a ↔ @Counted clzNoted c w a := by
  obtain ⟨q, hq⟩ := h.owned
  -- a block that is freed was carved, and the classes of those agree
  have hfreed : ∀ ptr, a = (0, .free ptr) → ptr ≠ 0 →
      sizeClass (MemUtil.ptrToSize w.shared.heap.store.mem ptr) =
        @sizeClass clzNoted (MemUtil.ptrToSize w.shared.heap.store.mem ptr) := by
    rintro ptr rfl hne
    have hlive : ptr ≠ 0 → ptr ∈ w.shared.live := @Legal.act clzNoted _ _ _ hlegal
    obtain ⟨b, hb, rfl⟩ := hq.live_carved ptr (hlive hne)
    rw [hq.heap.ptrToSize hb]
    exact hsettled.uniform b hb
  have hmoved : ∀ ptr size, a = (0, .realloc ptr size) →
      sizeClass size = @sizeClass clzNoted size := by
    rintro ptr size rfl
    exact Settled.sizeClass hasks
  constructor
  · intro hcounted
    refine @Counted.mk clzNoted _ _ _ hcounted.start ?_ ?_
    · intro ptr size ha j hlp hne hlt hbatch
      exact hcounted.realloc ptr size ha j hlp hne hlt (by rwa [hmoved ptr size ha])
    · intro ptr ha hne
      rw [← hfreed ptr ha hne]
      exact hcounted.free ptr ha hne
  · intro hcounted
    refine ⟨@Counted.start clzNoted _ _ _ hcounted, ?_, ?_⟩
    · intro ptr size ha j hlp hne hlt hbatch
      exact @Counted.realloc clzNoted _ _ _ hcounted ptr size ha j hlp hne hlt
        (by rwa [← hmoved ptr size ha])
    · intro ptr ha hne
      rw [hfreed ptr ha hne]
      exact @Counted.free clzNoted _ _ _ hcounted ptr ha hne

/-- **Every run that keeps the count** keeps the main thread's remote lists within a batch.
Unless `__builtin_clz(0)` is 32, nobody asks for more than `2 ^ 31` and at most `2 ^ 32` bytes. -/
theorem bounded_hoarding [ClzZero] (c : Config) (base : Nat → Nat) (w : World) (hc : Setting c)
    (hbase : c.FreshBase base)
    (hrun : (system c base).Run (fun w a => LegalSettled c w a ∧ Counted c w a) w) :
    BoundedHoarding c w := by
  have hnoted := (run_iff_of hc hbase fun _ _ hinv hsettled hlegal hasks =>
    counted_congr hinv hsettled hlegal hasks).mp hrun
  have hinv : HoardInv c w := by
    refine hnoted.invariant ?_ fun _ _ _ hinv hok hstep => hinv.step hc hok.1.1 hok.2 hstep
    rintro _ ⟨mem, rfl⟩
    exact HoardInv.start hbase mem
  intro j hj hstack
  obtain ⟨q, hq⟩ := hinv.leases.inv.owned
  have hoards := hinv.hoards j hj q hq.heap
  refine ⟨q, hq.heap.sound.toRep.represents, fun i => ?_⟩
  have hcounted := hoards.counted (by simp [hstack]) i
  exact hcounted.trans (hoards.counts i).2

end Runs

/-! ### Two threads -/

/-- The steps of two threads in `trades`, where the main thread moves no block, leases a manager
with empty remote lists and frees a block whose counter is in range. -/
def tradesCounted (c : Config) (w : World) (a : Nat × Action) : Bool :=
  trades c w a && match a with
  | (0, .start core) => (allocLocalMemoryManager c w.shared.heap.g core).1.all fun j =>
      ∀ k < c.coreN, k ≠ (managerPools c j).core → ∀ i,
        w.shared.heap.store.head ((managerPools c j).freeLists k, i) = 0
  | (0, .realloc _ _) => false
  | (0, .free ptr) => (w.threads 0).cntsPerSize
      (sizeClass (MemUtil.ptrToSize w.shared.heap.store.mem ptr)) < 2 ^ 31 - 1
  | _ => true

section Pair

variable {c : Config} {base : Nat → Nat} {w : World} {a : Nat × Action}
  {ok : World → Nat × Action → Prop}

theorem Counted.of_tradesCounted (h : tradesCounted c w a = true) : Counted c w a := by
  constructor
  case start =>
    rintro core rfl j hj _ ⟨k, hk, hne, rfl⟩ i
    have hempty : (allocLocalMemoryManager c w.shared.heap.g core).1.all _ = true :=
      (Bool.and_eq_true_iff.mp h).2
    rw [hj] at hempty
    exact of_decide_eq_true hempty k hk hne i
  case realloc =>
    rintro ptr size rfl
    exact absurd (Bool.and_eq_true_iff.mp h).2 Bool.false_ne_true
  case free =>
    rintro ptr rfl -
    exact of_decide_eq_true (Bool.and_eq_true_iff.mp h).2

end Pair

/-- A list with a second header. -/
theorem two_le_length {s : Store ListId} {q : QueueId → List Nat} {k : QueueId}
    (h : s.Represents q) (hhead : s.head k ≠ 0) (hnext : s.next (s.head k) ≠ 0) :
    2 ≤ (q k).length := by
  have hchain := h.reaches k
  cases hq : q k with
  | nil => exact absurd (hq ▸ hchain : Chain _ _ _ []) hhead
  | cons a rest =>
      rw [hq] at hchain
      obtain ⟨heq, -, htail⟩ := hchain
      cases rest with
      | nil => exact absurd (heq ▸ htail) hnext
      | cons => exact Nat.le_add_left 2 _

/-- The main thread moves both blocks to larger ones. -/
def uncountedRun : List (Nat × Action) := pairRun ++
  [(0, .realloc 140737488355376 262144), (0, .resume 0), (0, .resume 0),
    (0, .realloc 140737488490544 262144), (0, .resume 0), (0, .resume 0)]

theorem countedRun_made : ((World.init twoCores MmapManager.oneCoreBase fun _ => 0).run twoCores
    (tradesCounted twoCores) countedRun).isSome = true := by
  decide +kernel

theorem uncountedRun_made : ((World.init twoCores MmapManager.oneCoreBase fun _ => 0).run twoCores
    (trades twoCores) uncountedRun).isSome = true := by
  decide +kernel

theorem bounded_hoarding_countedRun : ∃ w : World,
    (w.threads 0).lp = some 0 ∧ BoundedHoarding twoCores w := by
  have hrun : (system twoCores MmapManager.oneCoreBase).Run
      (fun w a => Legal twoCores w a ∧ Counted twoCores w a) (Option.get _ countedRun_made) :=
    Pair.run (World.run_sound _ (fun _ _ h => ⟨Pair.of_trades (Bool.and_eq_true_iff.mp h).1,
      Counted.of_tradesCounted h⟩) (.start ⟨_, rfl⟩) (Option.some_get countedRun_made).symm)
  exact ⟨_, by decide +kernel,
    bounded_hoarding twoCores MmapManager.oneCoreBase _ twoCores_setting (by decide)
      (hrun.mono fun _ a h => ⟨⟨h.1, a.2.asks_settled⟩, h.2⟩)⟩

/-- The main thread has moved two blocks of core 1 and hoards both, where the table allows one:
what `realloc` leaves is not counted. -/
theorem not_boundedHoarding : ¬ ∀ (c : Config) (base : Nat → Nat) (w : World), Setting c →
    c.FreshBase base → (system c base).Run (Legal c) w → BoundedHoarding c w := by
  intro hall
  let w := Option.get _ uncountedRun_made
  have hpair : (system twoCores MmapManager.oneCoreBase).Run
      (fun w a => Pair twoCores w a ∧ True) w :=
    World.run_sound _ (fun _ _ h => ⟨Pair.of_trades h, trivial⟩) (.start ⟨_, rfl⟩)
      (Option.some_get uncountedRun_made).symm
  have hrun := (Pair.run hpair).mono fun _ _ h => h.1
  obtain ⟨q, hq, hbound⟩ := hall twoCores _ w twoCores_setting (by decide) hrun 0
    (by decide +kernel) (by decide +kernel)
  have hlist : (managerPools twoCores 0).freeLists 1 = .memoryPools 2 := by decide
  have hhead : w.shared.heap.store.head (.memoryPools 2, 17) ≠ 0 := by decide +kernel
  have hnext : w.shared.heap.store.next (w.shared.heap.store.head (.memoryPools 2, 17)) ≠ 0 := by
    decide +kernel
  have hlong := two_le_length hq hhead hnext
  have hsum : (q ((managerPools twoCores 0).freeLists 1, 17)).length ≤ remoteN twoCores q 0 17 :=
    Finset.single_le_sum (f := fun k => (q ((managerPools twoCores 0).freeLists k, 17)).length)
      (fun _ _ => Nat.zero_le _) (mem_remote.mpr (by decide))
  have htwo : (remoteN twoCores q 0 17 : Int) ≤ 1 := hbound 17
  rw [hlist] at hsum
  omega

end FCMalloc.Machine
