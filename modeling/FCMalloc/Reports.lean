import FCMalloc.MallocPaths

/-!
# FCMalloc.Reports

`LocalMemoryManager::Malloc` when it has to extend its arena, and the `printf` of the report
asks for memory.

The report is made under the arena's mutex. Each `malloc` in it takes one block of its class
off the manager's lists or the pool, or locks that mutex again: the report comes back if and
only if `printf` asks for no more blocks of a class than the manager has there (`Stocked`).
-/

namespace FCMalloc

open ByteMemory GlobalMemoryManager LocalMemoryManager

/-- The blocks of class `i` that manager `m` can get at without the arena. -/
def LocalMemoryManager.stock (m : LocalMemoryManager) (q : QueueId → List Nat) (i : SizeClass) :
    Nat :=
  (q (m.ownQueue i)).length + (q (m.coreQueue i)).length + (q (m.poolQueue i)).length

/-- How many blocks of class `i` are asked for. -/
def askedFor (asked : List Nat) (i : SizeClass) : Nat :=
  asked.countP fun n => n ≠ 0 ∧ sizeClass n = i

/-- The manager has what `printf` asks for. -/
def Stocked (m : LocalMemoryManager) (q : QueueId → List Nat) (asked : List Nat) : Prop :=
  ∀ i, askedFor asked i ≤ m.stock q i

/-- The report of an extension, if there is one, comes back. -/
def Reports (c : Config) (main : Bool) (m : LocalMemoryManager) (s : Process)
    (q : QueueId → List Nat) (size : Nat) (asked : List Nat) : Prop :=
  Extends c main m s q size → Stocked m q asked

section Stock

variable {c : Config} {m : LocalMemoryManager} {s s' : Process} {q q' : QueueId → List Nat}
  {i : SizeClass} {ptr n : Nat} {asked : List Nat}

theorem askedFor_cons_zero : askedFor (0 :: asked) i = askedFor asked i := by
  simp [askedFor]

theorem askedFor_cons (hn : n ≠ 0) :
    askedFor (n :: asked) i = askedFor asked i + if i = sizeClass n then 1 else 0 := by
  unfold askedFor
  rw [List.countP_cons]
  simp [hn, eq_comm]

/-- What is asked for is asked for one by one. -/
theorem stocked_cons_iff (hn : n ≠ 0) (hstock : ∀ i, m.stock q i =
    m.stock q' i + if i = sizeClass n then 1 else 0) :
    Stocked m q (n :: asked) ↔ Stocked m q' asked := by
  refine forall_congr' fun i => ?_
  rw [askedFor_cons hn, hstock i]
  exact Nat.add_le_add_iff_right

/-- The blocks a report takes are those it asks for. -/
theorem report_cons : m.report c (n :: asked) s.store =
    (m.mallocPrinting c s.store n).bind (m.report c asked) := by
  rw [report, List.foldlM_cons]
  rfl

theorem mallocPrinting_zero : m.mallocPrinting c s.store 0 = some s.store := if_pos rfl

/-- A block taken without the arena is one less. -/
theorem Obtains.stock_eq (h : Obtains c m i s q ptr s' q') (hpos : 0 < m.stock q i)
    (hcore : m.ownQueue i ≠ m.coreQueue i) (hpool : m.ownQueue i ≠ m.poolQueue i)
    (hlists : m.coreQueue i ≠ m.poolQueue i)
    (hbatch : q (m.poolQueue i) ≠ [] → 0 < (c.nPerSize i).toNat) (i' : SizeClass) :
    m.stock q i' = m.stock q' i' + if i' = i then 1 else 0 := by
  have hother : i' ≠ i → ∀ l l' : ListId, ((l, i') : QueueId) ≠ (l', i) := fun hne l l' heq =>
    hne (congrArg Prod.snd heq)
  by_cases hi : i' = i
  case neg =>
    rw [if_neg hi]
    unfold stock
    cases h with
    | own _ _ _ hqueues | carved _ _ _ _ _ _ _ _ _ hqueues =>
        simp [hqueues, ownQueue, coreQueue, poolQueue, Function.update_of_ne (hother hi _ _)]
    | core _ _ _ _ hqueues | pool _ _ _ _ _ hqueues =>
        simp [hqueues, ownQueue, coreQueue, poolQueue, Function.update_of_ne (hother hi _ _)]
  case pos =>
    subst hi
    rw [if_pos rfl]
    unfold stock at *
    cases h with
    | own hown _ _ hqueues =>
        simp only [hqueues, hown, Function.update_self, Function.update_of_ne hcore.symm,
          Function.update_of_ne hpool.symm, List.length_cons]
        omega
    | core hown hfree _ _ hqueues =>
        simp only [hqueues, hown, hfree, Function.update_self, Function.update_of_ne hcore,
          Function.update_of_ne hpool.symm, Function.update_of_ne hlists.symm, List.length_cons,
          List.length_nil]
        omega
    | @pool a t hown hfree hpooled _ _ hqueues =>
        have hn := hbatch (by simp [hpooled])
        have hlength : ((q (m.poolQueue i')).take (c.nPerSize i').toNat).length +
            ((q (m.poolQueue i')).drop (c.nPerSize i').toNat).length = t.length + 1 := by
          rw [← List.length_append, List.take_append_drop, hpooled, List.length_cons]
        have hfront : 0 < ((q (m.poolQueue i')).take (c.nPerSize i').toNat).length := by
          rw [hpooled, List.length_take, List.length_cons]
          omega
        simp only [hqueues, hown, hfree, Function.update_self, Function.update_of_ne hpool,
          Function.update_of_ne hlists, Function.update_of_ne hcore.symm, List.length_nil,
          List.length_tail] at hlength hfront ⊢
        rw [hpooled, List.length_cons]
        rw [hpooled] at hlength hfront
        omega
    | carved hown hfree hpooled => simp [hown, hfree, hpooled] at hpos

/-- Nor does it change anything but the lists. -/
theorem Obtains.process (h : Obtains c m i s q ptr s' q') (hpos : 0 < m.stock q i) :
    s' = { s with store := s'.store } := by
  cases h with
  | own _ _ hprocess | core _ _ _ hprocess | pool _ _ _ _ hprocess => exact hprocess
  | carved hown hfree hpooled => simp [LocalMemoryManager.stock, hown, hfree, hpooled] at hpos

end Stock

section Calls

variable {c : Config} {main : Bool} {s s' s'' : Process} {q q' q'' : QueueId → List Nat}
  {i i' : SizeClass} {j size ptr ptr' ret n : Nat} {asked : List Nat}

/-- A call whose pointer nobody asks for. -/
theorem Mallocs.forget (h : Mallocs c i s q ptr s' q') : Mallocs c i' s q 0 s' q' where
  heap := h.heap
  kept := h.kept
  bodies := h.bodies
  loose := h.loose
  taken hne := absurd rfl hne

namespace HeapInv

/-- A `malloc` of the report that finds a block. -/
theorem mallocPrinting_stocked (h : HeapInv c s q) (hj : j < managerN c) (hn : n ≠ 0)
    (hstock : 0 < (managerPools c j).stock q (sizeClass n)) (i : SizeClass) :
    ∃ store q', (managerPools c j).mallocPrinting c s.store n = some store ∧
      Mallocs c i s q 0 { s with store } q' ∧
      (∀ i', (managerPools c j).stock q i' =
        (managerPools c j).stock q' i' + if i' = sizeClass n then 1 else 0) ∧
      ∃ a, Queued q a ∧ ¬ Queued q' a := by
  have hpaths : ∃ ptr s' q', (managerPools c j).malloc c false s n 0 [] = some (ptr, s') ∧
      (managerPools c j).mallocPrinting c s.store n = some s'.store ∧
      Mallocs c (sizeClass n) s q ptr s' q' ∧ ptr ≠ 0 ∧
      Obtains c (managerPools c j) (sizeClass n) s q ptr s' q' := by
    by_cases hown : q ((managerPools c j).ownQueue (sizeClass n)) = []
    · by_cases hcore : q ((managerPools c j).coreQueue (sizeClass n)) = []
      · refine h.malloc_pool hj hn hown hcore fun hpool => ?_
        simp [LocalMemoryManager.stock, hown, hcore, hpool] at hstock
      · exact h.malloc_own hj hn (Or.inr hcore)
    · exact h.malloc_own hj hn (Or.inl hown)
  obtain ⟨ptr, s', q', -, hrun, hmallocs, hne0, hobtains⟩ := hpaths
  have hprocess := hobtains.process hstock
  obtain ⟨hcore, hpool⟩ := ownQueue_ne (c := c) (i := sizeClass n) hj
  have hlists : (managerPools c j).coreQueue (sizeClass n) ≠
      (managerPools c j).poolQueue (sizeClass n) := fun heq =>
    freeLists_ne_pool hj (core_lt hj) (congrArg Prod.fst heq)
  have hstock' := hobtains.stock_eq hstock hcore hpool hlists fun hne => by
    by_contra hzero
    exact hne (h.queue_nil (by omega))
  obtain ⟨b, hb, -, -, hout, hothers⟩ := hmallocs.taken hne0
  have hcarved : s'.carved = s.carved := by rw [hprocess]
  refine ⟨s'.store, q', hrun, hprocess ▸ hmallocs.forget, hstock', b.addr, ?_, hout⟩
  by_contra hloose
  exact hothers b (hcarved ▸ hb) hloose rfl

/-- **A report the manager has enough for** comes back, and has taken what it asked for. -/
theorem report_runs (h : HeapInv c s q) (hj : j < managerN c)
    (hstock : Stocked (managerPools c j) q asked) (i : SizeClass) :
    ∃ store q', (managerPools c j).report c asked s.store = some store ∧
      Mallocs c i s q 0 { s with store } q' ∧
      (∀ i', (managerPools c j).stock q i' =
        (managerPools c j).stock q' i' + askedFor asked i') ∧
      ((∃ n ∈ asked, n ≠ 0) → ∃ a, Queued q a ∧ ¬ Queued q' a) := by
  induction asked generalizing s q with
  | nil =>
      have hmallocs : Mallocs c i s q 0 s q := ⟨h, List.prefix_refl _, fun _ _ _ _ _ => rfl,
        fun _ _ hout => hout, fun hne => absurd rfl hne⟩
      exact ⟨s.store, q, rfl, hmallocs, fun _ => rfl, by simp⟩
  | cons n asked ih =>
      rw [report_cons]
      by_cases hn : n = 0
      · subst hn
        rw [mallocPrinting_zero, Option.bind_some]
        have hstock' : Stocked (managerPools c j) q asked := fun i => askedFor_cons_zero ▸ hstock i
        obtain ⟨store, q', hrun, hmallocs, hleft, htook⟩ := ih h hstock'
        refine ⟨store, q', hrun, hmallocs, fun i' => askedFor_cons_zero.symm ▸ hleft i', ?_⟩
        rintro ⟨n, hn, hne⟩
        exact htook ⟨n, (List.mem_cons.mp hn).resolve_left hne, hne⟩
      · have hpos : 0 < (managerPools c j).stock q (sizeClass n) := by
          have hle := hstock (sizeClass n)
          rw [askedFor_cons hn, if_pos rfl] at hle
          omega
        obtain ⟨store₁, q₁, hrun₁, hmallocs₁, hleft₁, a, ha, ha'⟩ :=
          h.mallocPrinting_stocked hj hn hpos i
        obtain ⟨store, q', hrun, hmallocs, hleft, -⟩ :=
          ih hmallocs₁.heap ((stocked_cons_iff hn hleft₁).mp hstock)
        refine ⟨store, q', ?_, hmallocs₁.trans hmallocs, fun i' => ?_, fun _ => ⟨a, ha, ?_⟩⟩
        · rw [hrun₁, Option.bind_some]
          exact hrun
        · rw [askedFor_cons hn, hleft₁ i', hleft i']
          omega
        · -- a block that has left the queues stays off them
          obtain ⟨k, hk⟩ := ha
          obtain ⟨b, hb, rfl⟩ := h.sound.nodes k a hk
          exact hmallocs.loose b hb ha'

/-- Any other locks the arena's mutex again. -/
theorem report_relocks (h : HeapInv c s q) (hj : j < managerN c)
    (hstock : ¬ Stocked (managerPools c j) q asked) :
    (managerPools c j).report c asked s.store = none := by
  induction asked generalizing s q with
  | nil => exact absurd (fun i => Nat.zero_le _) hstock
  | cons n asked ih =>
      rw [report_cons]
      by_cases hn : n = 0
      · subst hn
        rw [mallocPrinting_zero, Option.bind_some]
        exact ih h fun hall => hstock fun i => askedFor_cons_zero.symm ▸ hall i
      · by_cases hpos : 0 < (managerPools c j).stock q (sizeClass n)
        · obtain ⟨store, q', hrun, hmallocs, hleft, -⟩ :=
            h.mallocPrinting_stocked hj hn hpos (sizeClass n)
          rw [hrun, Option.bind_some]
          exact ih hmallocs.heap (mt (stocked_cons_iff hn hleft).mpr hstock)
        · have hzero := Nat.eq_zero_of_not_pos hpos
          unfold LocalMemoryManager.stock at hzero
          obtain ⟨-, -, -, hnone, -⟩ := h.malloc_empty hj hn
            (List.length_eq_zero_iff.mp (by omega)) (List.length_eq_zero_iff.mp (by omega))
            (List.length_eq_zero_iff.mp (by omega))
          rw [hnone, Option.bind_none]

/-- An extension leaves the queues alone, and the arena large enough for what comes after the
report. -/
theorem malloc_extends (h : HeapInv c s q) (hj : j < managerN c) (hsize : size ≠ 0)
    (hfits : c.TableFits) (hforce : c.forceMmapFlag = true)
    (hext : Extends c main (managerPools c j) s q size)
    (hfresh : FreshMmap c main (managerPools c j) s size ret)
    (htouch : ∃ touch, MmapManager.touchOnce c main s.mm
      (c.arena main (managerPools c j).core) = some touch) :
    let m := managerPools c j
    let a := c.arena main m.core
    let n := c.batch (sizeClass size)
    ∃ s₁ : Process, Mallocs c (sizeClass size) s q 0 s₁ q ∧
      mmapSize c size n ≤ s₁.mm.sizes a - s₁.mm.offsets a ∧ s₁.mm.firstTouchFlag a = true ∧
      ∀ asked, m.malloc c main s size ret asked =
        ((m.report c asked s₁.store).bind fun store =>
          { s₁ with store, mm := (s₁.mm.serve a (mmapSize c size n)).2 }.carveInto c m.mallocList
            m.core size n (s₁.mm.serve a (mmapSize c size n)).1).map (m.mallocLast · size) := by
  intro m a n
  have hcore : m.core ≤ c.coreN := Nat.le_of_lt (core_lt hj)
  obtain ⟨store, h₁, hlinks, -, hrun⟩ := h.malloc_empty hj hsize hext.own hext.core hext.pool
  obtain ⟨⟨mm₁, touched⟩, ht⟩ := htouch
  have henter : MmapManager.enter c main s.mm m.core (mmapSize c size n) ret =
      some (none, mm₁.extend c a (mmapSize c size n) ret, touched) :=
    MmapManager.enter_extends ht hext.arena
  obtain ⟨h₂, -, -, hroom⟩ := h₁.enter hforce hcore (dvd_align _ _)
    (mmapSize_wrap hfits (Nat.pos_of_ne_zero hsize)) hfresh henter
  obtain ⟨hfit, hflag⟩ := hroom rfl
  let s₁ := ({ s with store } : Process).touch (mm₁.extend c a (mmapSize c size n) ret) touched
  have hbefore : Mallocs c (sizeClass size) s q 0 s₁ q :=
    ⟨h₂, List.prefix_refl _, (h.sameBodies_links hlinks).trans (h₁.touched_bodies hcore ht),
      fun _ _ hout => hout, fun hne => absurd rfl hne⟩
  have hfinish : s₁.mm.finishExtended a (mmapSize c size n) = s₁.mm.serve a (mmapSize c size n) :=
    h₂.arena.finishExtended_eq (Config.arena_lt hcore) hfit
  refine ⟨s₁, hbefore, hfit, hflag, fun asked => ?_⟩
  rw [hrun, Process.allocate]
  dsimp only
  rw [henter, Option.bind_some, ← hfinish]

/-- **Malloc with a report** that the manager has enough for: the arena is extended, what
`printf` asks for is taken, and a new batch is carved. -/
theorem malloc_reported (h : HeapInv c s q) (hj : j < managerN c) (hsize : size ≠ 0)
    (hfits : c.TableFits) (hforce : c.forceMmapFlag = true)
    (hext : Extends c main (managerPools c j) s q size)
    (hfresh : FreshMmap c main (managerPools c j) s size ret)
    (htouch : ∃ touch, MmapManager.touchOnce c main s.mm
      (c.arena main (managerPools c j).core) = some touch)
    (hstock : Stocked (managerPools c j) q asked) :
    ∃ ptr s' q', (managerPools c j).malloc c main s size ret asked = some (ptr, s') ∧
      Mallocs c (sizeClass size) s q ptr s' q' ∧ ptr ≠ 0 ∧
      ((∃ n ∈ asked, n ≠ 0) → ∃ a, Queued q a ∧ ¬ Queued q' a) := by
  let m := managerPools c j
  let n := c.batch (sizeClass size)
  have ha : c.arena main m.core < c.threadN := Config.arena_lt (Nat.le_of_lt (core_lt hj))
  obtain ⟨s₁, hbefore, hfit, hflag, hrun⟩ :=
    h.malloc_extends hj hsize hfits hforce hext hfresh htouch
  obtain ⟨store, q₁, hreport, hreported, hleft, htook⟩ :=
    hbefore.heap.report_runs hj hstock (sizeClass size)
  obtain ⟨h₂, hgranted⟩ := hreported.heap.serve ha hfit hflag (dvd_align _ _)
  have hserved : Mallocs c (sizeClass size) s₁ q 0 { s₁ with store, mm := (s₁.mm.serve
      (c.arena main m.core) (mmapSize c size n)).2 } q₁ :=
    ⟨h₂, hreported.kept, hreported.bodies, hreported.loose, hreported.taken⟩
  have hown : q₁ (m.ownQueue (sizeClass size)) = [] := by
    have hnone : m.stock q (sizeClass size) = 0 := by
      simp [LocalMemoryManager.stock, m, hext.own, hext.core, hext.pool]
    have hzero : 0 = m.stock q₁ (sizeClass size) + askedFor asked (sizeClass size) :=
      hnone.symm.trans (hleft (sizeClass size))
    unfold LocalMemoryManager.stock at hzero
    exact List.length_eq_zero_iff.mp (by omega)
  obtain ⟨s₂, new, hcarve, hmallocs, hptr, hlength, -⟩ :=
    h₂.carve_front hj hsize hfits hown hgranted
  have hbatch : 0 < n := Process.batch_pos_of_needsExtension hext.arena
  have hne : (m.mallocLast s₂ size).1 ≠ 0 := by
    obtain ⟨b, bs, hnew⟩ := List.exists_cons_of_length_pos (l := new) (by rwa [hlength])
    rw [hptr, hnew, List.map_cons]
    exact frontBody_cons_ne_zero
  refine ⟨_, _, _, ?_, hbefore.trans (hserved.trans hmallocs), hne, fun hasked => ?_⟩
  · rw [hrun, hreport, Option.bind_some]
    exact congrArg _ hcarve
  · -- a block of the report is carved already, so it stays off the queues
    obtain ⟨a, ⟨k, hk⟩, hout⟩ := htook hasked
    obtain ⟨b, hb, rfl⟩ := hbefore.heap.sound.nodes k a hk
    exact ⟨b.addr, ⟨k, hk⟩, hmallocs.loose b (hserved.kept.subset hb) hout⟩

/-- **Malloc with any other report** never comes back. -/
theorem malloc_relocks (h : HeapInv c s q) (hj : j < managerN c) (hsize : size ≠ 0)
    (hfits : c.TableFits) (hforce : c.forceMmapFlag = true)
    (hext : Extends c main (managerPools c j) s q size)
    (hfresh : FreshMmap c main (managerPools c j) s size ret)
    (htouch : ∃ touch, MmapManager.touchOnce c main s.mm
      (c.arena main (managerPools c j).core) = some touch)
    (hstock : ¬ Stocked (managerPools c j) q asked) :
    (managerPools c j).malloc c main s size ret asked = none := by
  obtain ⟨s₁, hbefore, -, -, hrun⟩ := h.malloc_extends hj hsize hfits hforce hext hfresh htouch
  rw [hrun, hbefore.heap.report_relocks hj hstock]
  rfl

/-- A call that comes back, with or without a report: it has a block unless its class has no
batch. -/
theorem malloc_kept (h : HeapInv c s q) (hj : j < managerN c) (hsize : size ≠ 0)
    (hfits : c.TableFits) (hforce : c.forceMmapFlag = true) (hsized : Untouched c s.mm)
    (hfresh : FreshMmap c main (managerPools c j) s size ret)
    (hreturns : Returns c main (managerPools c j) s q (sizeClass size))
    (hreports : Reports c main (managerPools c j) s q size asked) :
    ∃ ptr s' q', (managerPools c j).malloc c main s size ret asked = some (ptr, s') ∧
      Mallocs c (sizeClass size) s q ptr s' q' ∧
      ((0 < c.nPerSize (sizeClass size) ∧ ptr ≠ 0) ∨
        (c.nPerSize (sizeClass size) = 0 ∧ Refused s q ptr s' q')) := by
  by_cases hext : Extends c main (managerPools c j) s q size
  · have htouch := (h.touchOnce_returns_iff hj hsized).mpr (hreturns hext.own hext.core hext.pool)
    obtain ⟨ptr, s', q', hrun, hmallocs, hne, -⟩ :=
      h.malloc_reported hj hsize hfits hforce hext hfresh htouch (hreports hext)
    refine ⟨ptr, s', q', hrun, hmallocs, Or.inl ⟨?_, hne⟩⟩
    have hbatch := Process.batch_pos_of_needsExtension hext.arena
    rw [(hfits.batch_eq (sizeClass size)).1] at hbatch
    omega
  · obtain ⟨ptr, s', q', hrun, hmallocs, hway⟩ := h.malloc_runs hj hsize hfits hforce hsized hfresh
      hreturns fun hyes => absurd hyes hext
    exact ⟨ptr, s', q', hrun, hmallocs, hway.imp (fun hobtains => ⟨hobtains.1, hobtains.2.1⟩) id⟩

/-- **Which calls of Malloc come back**: those whose touch and whose report do. -/
theorem malloc_returns_iff (h : HeapInv c s q) (hj : j < managerN c) (hsize : size ≠ 0)
    (hfits : c.TableFits) (hforce : c.forceMmapFlag = true) (hsized : Untouched c s.mm)
    (hfresh : FreshMmap c main (managerPools c j) s size ret) :
    (∃ ptr s', (managerPools c j).malloc c main s size ret asked = some (ptr, s')) ↔
      Returns c main (managerPools c j) s q (sizeClass size) ∧
        Reports c main (managerPools c j) s q size asked := by
  constructor
  · rintro ⟨ptr, s', hrun⟩
    have hreturns : Returns c main (managerPools c j) s q (sizeClass size) := by
      by_contra hstuck
      rw [h.malloc_diverges hj hsize hsized hstuck] at hrun
      exact absurd hrun (by simp)
    refine ⟨hreturns, fun hext => ?_⟩
    by_contra hstock
    have htouch := (h.touchOnce_returns_iff hj hsized).mpr (hreturns hext.own hext.core hext.pool)
    rw [h.malloc_relocks hj hsize hfits hforce hext hfresh htouch hstock] at hrun
    exact absurd hrun (by simp)
  · rintro ⟨hreturns, hreports⟩
    obtain ⟨ptr, s', -, hrun, -⟩ :=
      h.malloc_kept hj hsize hfits hforce hsized hfresh hreturns hreports
    exact ⟨ptr, s', hrun⟩

end HeapInv

end Calls

end FCMalloc
