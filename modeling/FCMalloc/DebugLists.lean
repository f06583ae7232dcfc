import FCMalloc.DebugBuild
import FCMalloc.HeapGrowth

/-!
# FCMalloc.DebugLists

No assertion about headers and lists fails.

What they ask for is part of the invariants of the release build: the members of a header
are those that carving wrote (`Checked.checks`), a list ends in a null link, and so does a
block on no list. Each function of the debug build therefore has a lemma `_eq` that it does
what its release build does, and the loops follow by the rules for asserted loops. The one
assertion that can fail is that of `append` on a batch of no blocks (`carveInto_zero`).
-/

namespace FCMalloc

open ByteMemory GlobalMemoryManager

/-- The members of the header at `m` are as `MemoryLinkedList::Assert` wants them. -/
structure HeaderChecks (mem : Memory) (m : Nat) : Prop where
  dummySpace : readField mem m .dummySpace = signature
  core : readField mem m .core < readField mem m .coreN
  size : 0 < readField mem m .size
  bodyAddr : readField mem m .bodyAddr ≠ 0

/-- A sound store whose headers all pass. -/
structure Checked (N : Set Nat) (s : Store ListId) (q : QueueId → List Nat) : Prop
    extends Sound N s q where
  checks : ∀ a ∈ N, HeaderChecks s.mem a

section Headers

variable {α : Type} {c : Config} {N : Set Nat} {s s' : Store ListId} {q q' : QueueId → List Nat}
  {mem mem' : Memory} {m ptr a : Nat} {k : QueueId} {heap : Process} {b : Block}

/-- Links are none of the members that are checked. -/
theorem HeaderChecks.links (h : HeaderChecks mem a) (hN : HeaderSet N) (ha : a ∈ N)
    (hlinks : OnlyLinks N mem mem') : HeaderChecks mem' a where
  dummySpace := (hlinks.field hN ha (by decide)).trans h.dummySpace
  core := by
    rw [hlinks.field hN ha (by decide), hlinks.field hN ha (by decide)]
    exact h.core
  size := by
    rw [hlinks.field hN ha (by decide)]
    exact h.size
  bodyAddr := by
    rw [hlinks.field hN ha (by decide)]
    exact h.bodyAddr

theorem Checked.moved (h : Checked N s q) (hmoved : Moved N s s' q') : Checked N s' q' where
  toSound := hmoved.sound
  checks a ha := (h.checks a ha).links h.headers ha hmoved.links

/-- The headers of blocks pass. -/
theorem HeapInv.checks (h : HeapInv c heap q) (hb : b ∈ heap.carved) :
    HeaderChecks heap.store.mem b.addr where
  dummySpace := (h.headed b hb).dummySpace
  core := by
    rw [(h.headed b hb).core, (h.headed b hb).coreN]
    exact (h.blocks b hb).core_lt
  size := by
    obtain ⟨i, -, -, -, hsize⟩ := (h.blocks b hb).sizes
    rw [(h.headed b hb).size, hsize]
    exact Nat.two_pow_pos _
  bodyAddr := by
    rw [(h.headed b hb).bodyAddr]
    exact HeapInv.body_ne_zero b

theorem HeapInv.checked (h : HeapInv c heap q) : Checked (nodes heap.carved) heap.store q where
  toSound := h.sound
  checks := by
    rintro a ⟨b, hb, rfl⟩
    exact h.checks hb

namespace Debug

theorem assertHeader_eq (h : HeaderChecks mem m) (rest : Option α) :
    assertHeader mem m rest = rest := by
  rw [assertHeader, check_pos h.dummySpace, check_pos h.core, check_pos h.size,
    check_pos h.bodyAddr]

theorem getList_eq (h : HeaderChecks mem (headerOf ptr)) (rest : Option α) :
    getList mem ptr rest = rest := by
  rw [getList, check_pos h.dummySpace, assertHeader_eq h]

theorem inclCounter_eq (hlog : c.outIntvl ≠ 0) (rest : Option α) :
    inclCounter c ptr rest = rest := by
  rw [inclCounter, check_pos hlog, ite_self]

end Debug

end Headers

/-! ### Lists -/

namespace Debug

section Lists

variable {N : Set Nat} {s : Store ListId} {q : QueueId → List Nat} {l lm : ListId} {i : SizeClass}
  {m size thead tlast a : Nat}

theorem append_eq (hthead : thead ≠ 0) (htlast : tlast ≠ 0) (hnext : s.next tlast = 0)
    (hafter : (s.append l i thead tlast).next tlast = 0) :
    append s l i thead tlast = some (s.append l i thead tlast) := by
  rw [append, check_pos hthead, check_pos htlast, check_pos hnext]
  dsimp only
  rw [check_pos]
  rw [Rep.append_last, Function.update_self]
  exact hafter

theorem push_eq (h : Checked N s q) (hm : m ∈ N) (hloose : ∀ k, m ∉ q k) :
    push s l i m = some (s.push l i m) := by
  have hne : m ≠ 0 := Nat.ne_of_gt (h.headers.pos m hm)
  have hlt := h.headers.lt m hm
  have hnext := h.loose m hm hloose
  refine append_eq hne hne hnext ?_
  rw [Rep.append_next_of_not_mem h.headers h.nodes h.linked hm (by omega) (hloose _)]
  exact hnext

/-- A list with a first header: that header passes. -/
theorem head_checks (h : Checked N s q) (hne : ¬ (s.head (l, i) = 0 ∨ s.last (l, i) = 0)) :
    s.head (l, i) ∈ q (l, i) ∧ s.head (l, i) ∈ N ∧ HeaderChecks s.mem (s.head (l, i)) := by
  have hmem : s.head (l, i) ∈ q (l, i) := by
    cases hq : q (l, i) with
    | nil => exact absurd (Or.inl (h.caches_of_nil hq).1) hne
    | cons a t =>
        rw [(h.caches_of_cons hq).1]
        exact List.mem_cons_self
  have hN := h.nodes _ _ hmem
  exact ⟨hmem, hN, h.checks _ hN⟩

/-- The link of a queued header is null or leads to a header. -/
theorem next_mem (h : Checked N s q) (ha : a ∈ q (l, i)) (hne : s.next a ≠ 0) : s.next a ∈ N := by
  obtain ⟨xs, t, hq⟩ := List.append_of_mem ha
  have hbehind : Chain 0 s.next (s.next a) t := (hq ▸ h.linked.chain (l, i)).behind
  cases t with
  | nil => exact absurd hbehind hne
  | cons b t => exact h.nodes (l, i) _ (by rw [hq, hbehind.1]; simp)

theorem pop_eq (h : Checked N s q) : pop s l i = some (s.pop l i) := by
  unfold pop Store.pop
  split
  · rfl
  case isFalse hne =>
    obtain ⟨hmem, hN, hchecks⟩ := head_checks h hne
    rw [assertHeader_eq hchecks]
    dsimp only
    split
    case isTrue hnext =>
      have hnextN := next_mem h hmem hnext
      have hafter : HeaderChecks (s.setNext (s.head (l, i)) 0).mem (s.next (s.head (l, i))) :=
        (h.checks _ hnextN).links h.headers hnextN (OnlyLinks.writeNext hN)
      rw [assertHeader_eq hafter]
    case isFalse => rfl

theorem mallocFrom_eq (h : Checked N s q)
    (hfits : ∀ a ∈ q (l, sizeClass size), size ≤ readField s.mem a .size) :
    mallocFrom s l size = some (s.malloc l size) := by
  unfold mallocFrom Store.malloc
  dsimp only
  split
  · rfl
  case isFalse hne =>
    obtain ⟨hmem, -, hchecks⟩ := head_checks h hne
    rw [assertHeader_eq hchecks, check_pos hchecks.bodyAddr, check_pos (hfits _ hmem), pop_eq h]
    rfl

theorem joinClass_eq (h : Checked N s q) (hne : l ≠ lm) :
    joinClass s l lm i = some (s.joinClass l lm i) := by
  unfold joinClass Store.joinClass
  split
  case isTrue hhead =>
    have hj : q (lm, i) ≠ [] := mt h.linked.head_eq_null_iff.mpr hhead
    have hlast : s.last (lm, i) ≠ 0 := mt h.linked.last_eq_null_iff.mp hj
    obtain ⟨-, hfirst, -⟩ := head_checks h (not_or_intro hhead hlast)
    have hlt := h.headers.lt _ hfirst
    have hmem := Rep.last_mem h.linked hhead
    have hend : s.next (s.last (lm, i)) = 0 := by
      have hgetLast : s.last (lm, i) = (q (lm, i)).getLast hj := by
        rw [h.linked.last_eq, List.getLastD_eq_getLast?, List.getLast?_eq_some_getLast hj,
          Option.getD_some]
      rw [hgetLast]
      exact (h.linked.chain (lm, i)).next_getLast hj
    rw [append_eq hhead hlast hend]
    · rfl
    -- the last header of one list is not on the other
    · rw [Rep.append_next_of_not_mem h.headers h.nodes h.linked (h.nodes _ _ hmem) (by omega)]
      · exact hend
      · exact h.linked.sep.disjoint (lm, i) (l, i) (fun heq => hne (congrArg Prod.fst heq).symm) _
          hmem
  case isFalse => rfl

theorem joinList_eq (h : Checked N s q) (hne : l ≠ lm) :
    joinList s l lm = some (s.join l lm) := by
  refine (foldlM_eq (fun s => ∃ q, Checked N s q) ⟨q, h⟩ fun i _ t ht => ?_).1
  obtain ⟨q', ht⟩ := ht
  obtain ⟨hrep, hlinks⟩ := ht.toRep.joinClass (i := i) ht.headers hne
  exact ⟨joinClass_eq ht hne, _, ht.moved (ht.toSound.moved hrep hlinks)⟩

end Lists

/-! ### Managers and pools -/

section Managers

variable {c : Config} {N : Set Nat} {s : Store ListId} {q : QueueId → List Nat}
  {m : LocalMemoryManager} {mllm : ListId} {i : SizeClass} {core size n j k : Nat}
  {heap : Process} {b : Block}

/-- The blocks of the class of a request are large enough for it. -/
theorem fits_class (h : HeapInv c heap q) (hsize : size < 2 ^ 64) (l : ListId) :
    ∀ a ∈ q (l, sizeClass size), size ≤ readField heap.store.mem a .size := by
  intro a ha
  obtain ⟨b, hb, rfl, -, hclass⟩ := h.tags _ a ha
  rw [(h.headed b hb).size, hclass]
  exact le_two_pow_logarithm2 hsize

/-- The pointers of a manager are set. -/
theorem freeLists_ne_nullptr (hj : j < managerN c) (hk : k < c.coreN) :
    (managerPools c j).freeLists k ≠ .nullptr := by
  rw [freeLists_manager hj hk]
  simp

theorem mallocList_ne_nullptr (hj : j < managerN c) : (managerPools c j).mallocList ≠ .nullptr := by
  rw [mallocList_manager hj]
  simp

theorem mallocOwn_eq (h : HeapInv c heap q) (hj : j < managerN c) (hsize : size < 2 ^ 64) :
    mallocOwn (managerPools c j) heap.store size =
      some ((managerPools c j).mallocOwn heap.store size) := by
  let m := managerPools c j
  have hnull : m.freeLists m.core ≠ .nullptr := freeLists_ne_nullptr hj (core_lt hj)
  have hfits := fits_class h hsize
  unfold mallocOwn LocalMemoryManager.mallocOwn
  rw [mallocFrom_eq h.checked (hfits _), Option.bind_some]
  dsimp only
  split
  · rfl
  -- the second call, on the lists exchanged, has the same blocks to offer
  · obtain ⟨-, hmalloc⟩ := h.sound.malloc m.mallocList size
    have hne : m.mallocList ≠ m.freeLists m.core := mallocList_ne_freeLists hj hj (core_lt hj)
    have hmoved := Sound.trans hmalloc (hmalloc.sound.swap (i := sizeClass size) hne)
    rw [swap, check_pos hnull, check_pos (sizeClass size).isLt, check_pos hnull, Option.bind_some]
    refine mallocFrom_eq (h.checked.moved hmoved) fun a ha => ?_
    have hin : a ∈ q (m.freeLists m.core, sizeClass size) := by
      rw [swapped, Function.update_of_ne (fun heq => hne (congrArg Prod.fst heq)),
        Function.update_self] at ha
      exact mem_of_mem_dequeue ha
    have hfield := hmoved.links.field h.sound.headers (h.sound.nodes _ a hin) (f := .size)
      (by decide)
    exact (hfits _ a hin).trans_eq hfield.symm

theorem refill_eq (h : Checked N s q) :
    refill s mllm core i n = some (CommonMemoryPool.refill s mllm core i n) := by
  induction n generalizing s q with
  | zero => rfl
  | succ n ih =>
      rw [refill, CommonMemoryPool.refill, pop_eq h, Option.bind_some]
      cases hpool : q (.poolsPerCore core, i) with
      | nil => rw [h.toRep.pop_nil hpool, if_pos rfl, if_pos rfl]
      | cons a t =>
          obtain ⟨hret, hrep, hlinks⟩ := h.toRep.pop h.headers hpool
          have haN : a ∈ N := h.nodes _ a (by rw [hpool]; exact List.mem_cons_self)
          have hloose : ∀ k, a ∉ dequeue q (.poolsPerCore core, i) k := fun k hk =>
            ((queued_dequeue h.linked.sep hpool).mp ⟨k, hk⟩).2 rfl
          have hpopped := h.moved (h.toSound.moved hrep hlinks)
          have hpushed := hpopped.moved (hpopped.toSound.push (l := mllm) (i := i) haN hloose)
          have hpos : a ≠ 0 := Nat.ne_of_gt (h.headers.pos a haN)
          rw [hret, if_neg hpos, if_neg hpos, push_eq hpopped haN hloose, Option.bind_some,
            ih hpushed]

theorem poolMalloc_eq (h : HeapInv c heap q) (hj : j < managerN c) (hsize : size < 2 ^ 64) :
    poolMalloc c heap.store (managerPools c j).mallocList (managerPools c j).core size =
      some (CommonMemoryPool.malloc c heap.store (managerPools c j).mallocList
        (managerPools c j).core size) := by
  unfold poolMalloc CommonMemoryPool.malloc
  split
  · rfl
  · dsimp only
    rw [refill_eq h.checked, Option.bind_some]
    have hmoved : Moved (nodes heap.carved) heap.store _ (CommonMemoryPool.poolQueues c q
        (managerPools c j).mallocList (managerPools c j).core (sizeClass size)) :=
      CommonMemoryPool.refill_moved h.sound mallocList_ne_pool
    have hrefilled := h.moved hmoved (h.dealt_pool hj).reshuffle.source
    exact mallocFrom_eq hrefilled.checked (fits_class hrefilled hsize _)

theorem freeBlock_eq (hlog : c.outIntvl ≠ 0) (h : HeapInv c heap q) (hj : j < managerN c)
    (hb : b ∈ heap.carved) (hloose : ¬ Queued q b.addr) :
    freeBlock c (managerPools c j) heap.store b.body =
      some ((managerPools c j).free heap.store b.body) := by
  have hnull := freeLists_ne_nullptr hj (core_lt hj)
  have hchecks := h.checks hb
  have hnode : b.addr ∈ nodes heap.carved := ⟨b, hb, rfl⟩
  have hout : ∀ k, b.addr ∉ q k := fun k hk => hloose ⟨k, hk⟩
  have hmoved := h.free_moved (managerPools c j) hb hloose
  have hfreed := (h.checked.moved hmoved).checks b.addr hnode
  unfold freeBlock LocalMemoryManager.free at *
  rw [if_neg (HeapInv.body_ne_zero b)] at hfreed
  rw [if_neg (HeapInv.body_ne_zero b), if_neg (HeapInv.body_ne_zero b), check_pos hnull,
    getList_eq (by rw [h.headerOf_body hb]; exact hchecks)]
  unfold freeTo Store.free at *
  rw [if_neg (HeapInv.body_ne_zero b)] at hfreed
  rw [if_neg (HeapInv.body_ne_zero b), if_neg (HeapInv.body_ne_zero b)]
  dsimp only at *
  rw [h.headerOf_body hb] at hfreed ⊢
  rw [assertHeader_eq hchecks, check_pos (h.sound.loose _ hnode hout), push_eq h.checked hnode hout,
    Option.bind_some, getList_eq (by rw [h.headerOf_body hb]; exact hfreed), inclCounter_eq hlog]

theorem flushCore_eq (h : HeapInv c heap q) (hj : j < managerN c) (hk : k < c.coreN) :
    flushCore (managerPools c j) heap.store k =
      some ((managerPools c j).flushCore heap.store k) := by
  unfold flushCore LocalMemoryManager.flushCore
  split
  · exact joinList_eq h.checked (freeLists_ne_pool hj hk).symm
  · rfl

end Managers

/-! ### Leases -/

section Leasing

variable {c : Config} {g : GlobalMemoryManager} {N : Set Nat} {s : Store ListId}
  {q : QueueId → List Nat} {m i : Nat}

theorem handBack_eq (h : Checked N s q) (hm : m < managerN c) :
    handBack c g m i s = some (GlobalMemoryManager.handBack c g m i s) := by
  refine (forRangeChecked_eq (fun s => ∃ q, Checked N s q) ⟨q, h⟩ fun k hk t ht => ?_).1
  refine forRangeChecked_eq (fun s => ∃ q, Checked N s q) ht fun ii hii t ht => ?_
  obtain ⟨q', ht⟩ := ht
  refine ⟨?_, ?_⟩
  · unfold handBackTo GlobalMemoryManager.handBackTo
    split
    · rfl
    · split
      · exact joinList_eq ht (mallocList_ne_freeLists (slot_lt hk hii) hm hk)
      · rfl
  · obtain ⟨q'', hmoved, -⟩ := handBackTo_moved (g := g) (i := i) hm hk hii ht.toSound.refl
      ⟨Reshuffle.refl q', fun _ _ _ => rfl⟩
    exact ⟨q'', ht.moved hmoved⟩

/-- A leased manager is found. -/
theorem freeLocalMemoryManager_eq (h : Checked N s q) (hoff : -1 ≤ g.freeOffset)
    (hm : m < managerN c) (hleased : g.poolFlags m = true) :
    freeLocalMemoryManager c g s m =
      some (GlobalMemoryManager.freeLocalMemoryManager c g s m) := by
  have hspec := freeLocalMemoryManager_spec (s := s) hoff hm hleased
  unfold freeLocalMemoryManager GlobalMemoryManager.freeLocalMemoryManager at *
  dsimp only at *
  cases hfound : (scanOrder c (nextOffset g.freeOffset c.coreN)).find? fun slot =>
      g.poolFlags (c.poolN * slot.1 + slot.2) && decide (c.poolN * slot.1 + slot.2 = m) with
  | some slot =>
      dsimp only
      rw [handBack_eq h hm, Option.map_some]
  | none =>
      -- the flag of `m` would not have been cleared
      rw [hfound] at hspec
      have hflags := congrArg (fun r => r.1.poolFlags m) hspec
      simp only [hleased, Function.update_self] at hflags
      exact absurd hflags (by decide)

/-- An idle slot of the core is found if there is one. -/
theorem allocLocalMemoryManager_eq (hoff : -1 ≤ g.allocOffset) (core : Nat) :
    (∃ j, (GlobalMemoryManager.allocLocalMemoryManager c g core).1 = some j ∧
      (∃ i < c.poolN, g.poolFlags (c.poolN * core + i) = false) ∧
      allocLocalMemoryManager c g core =
        some (j, (GlobalMemoryManager.allocLocalMemoryManager c g core).2)) ∨
    ((∀ i < c.poolN, g.poolFlags (c.poolN * core + i) = true) ∧
      allocLocalMemoryManager c g core = none) := by
  unfold allocLocalMemoryManager
  obtain ⟨i, hi, hidle, heq⟩ | ⟨hall, heq⟩ := allocLocalMemoryManager_spec (c := c) hoff core
  · exact Or.inl ⟨_, by rw [heq], ⟨i, hi, hidle⟩, by rw [heq]; rfl⟩
  · exact Or.inr ⟨hall, by rw [heq]; rfl⟩

end Leasing

/-! ### Carving -/

section Carving

variable {c : Config} {s : Process} {q : QueueId → List Nat} {l : ListId}
  {numCores core bodySize totalSize size n p fuel i : Nat} {mem : Memory} {m : Nat}

theorem initHeader_coreN (hlt : numCores < 2 ^ 64) :
    readField (initHeader mem m numCores) m .coreN = numCores := by
  unfold initHeader
  dsimp only
  rw [readField_writeField_of_ne (by decide), readField_writeField_of_ne (by decide),
    readField_writeField_of_ne (by decide), readField_writeField_of_ne (by decide),
    readField_writeField_self hlt]

/-- The core is checked once more in each round. -/
theorem carveLoop_eq (hcore : core < numCores) (hlt : numCores < 2 ^ 64) (t : Carving) :
    carveLoop numCores core bodySize totalSize n fuel i t =
      some (FCMalloc.carveLoop numCores core bodySize totalSize n fuel i t) := by
  induction fuel generalizing i t with
  | zero => rfl
  | succ fuel ih =>
      rw [carveLoop, FCMalloc.carveLoop]
      split
      · rw [carveOne, check_pos (by rw [initHeader_coreN hlt]; exact hcore)]
        dsimp only
        rw [check_pos (alignCheck_eq _ _), Option.bind_some]
        exact ih _
      · rfl

theorem carve_eq (hcore : core < c.coreN) :
    carve c mem core size n p = some (FCMalloc.carve c mem core size n p) := by
  have hlt := c.coreN_lt
  unfold carve FCMalloc.carve
  rw [check_pos (alignCheck_eq _ _), carveLoop_eq hcore (by omega)]
  rfl

/-- The chain of a batch ends in a block with a null link. -/
theorem carved_end {mem₀ : Memory} {stride : Nat} {t : Carving} (hpos : 0 < n)
    (h : Carved c mem₀ p stride core bodySize n t) :
    t.pre ∈ (blocksFrom p stride core bodySize n).map Block.addr ∧
      readField t.mem t.pre .next = 0 := by
  have hne : (blocksFrom p stride core bodySize n).map Block.addr ≠ [] := blocksFrom_ne_nil hpos
  have hlast : t.pre = ((blocksFrom p stride core bodySize n).map Block.addr).getLast hne := by
    rw [h.pre, if_neg (Nat.ne_of_gt hpos), ← blocksFrom_last hpos, List.getLastD_eq_getLast?,
      List.getLast?_eq_some_getLast hne, Option.getD_some]
  rw [hlast]
  exact ⟨List.getLast_mem hne, h.chain.next_getLast hne⟩

/-- **A batch of blocks** passes: it is a chain of new blocks that ends in a null link. -/
theorem carveInto_eq (h : HeapInv c s q) (hfits : c.TableFits) (hsize : 0 < size)
    (hn : n = c.batch (sizeClass size)) (hpos : 0 < n) (hcore : core < c.coreN)
    (hgranted : Granted s c p (mmapSize c size n)) :
    carveInto c s l core size n p = some (s.carveInto c l core size n p) := by
  obtain ⟨hbatch, hint⟩ := hfits.batch_eq (sizeClass size)
  have hnonneg := hfits.nonneg (sizeClass size)
  have hsizes : BatchSizes c size n := by
    rw [hn]
    exact hfits.batchSizes hsize (by omega)
  have hroom := hsizes.room
  have hend := hgranted.lt
  obtain ⟨t, hrun, hcarved⟩ := carve_spec (n := n) size s.store.mem hgranted.pos
    (by omega) hcore (by omega)
  let new := blocksFrom p (FCMalloc.totalSize size) core (FCMalloc.bodySize size) n
  have hin : ∀ b ∈ new, b.extent.Within ⟨p, mmapSize c size n⟩ := fun b hb => hsizes.within hb
  have hnew : new.Pairwise fun b b' => b.extent.Apart b'.extent := blocksFrom_apart hsizes.stride
  have hN := h.headerSet_append hgranted.pos hend hin hnew hgranted.apart
  have hold := HeapInv.unwritten hgranted hsizes hcarved
  have h₁ : HeapInv c (s.setMem t.mem) q := h.setMem t.mem fun b hb x hx hx' => hold b hb x ⟨hx, by
    simp only [Block.extent]
    omega⟩
  obtain ⟨hmem, hnext⟩ := carved_end hpos hcarved
  have hnode : t.pre ∈ nodes (s.carved ++ new) := by
    obtain ⟨b, hb, heq⟩ := List.mem_map.mp hmem
    exact ⟨b, List.mem_append_right _ hb, heq⟩
  have hnodes : ∀ k, ∀ a ∈ q k, a ∈ nodes (s.carved ++ new) := by
    intro k a ha
    obtain ⟨b, hb, heq⟩ := h.sound.nodes k a ha
    exact ⟨b, List.mem_append_left _ hb, heq⟩
  have hhead : t.head = p := by rw [hcarved.head, if_neg (Nat.ne_of_gt hpos)]
  have hthead : t.head ≠ 0 := by
    rw [hhead]
    exact Nat.ne_of_gt hgranted.pos
  have happend : append (s.setMem t.mem).store l (sizeClass size) t.head t.pre =
      some ((s.setMem t.mem).store.append l (sizeClass size) t.head t.pre) := by
    refine append_eq hthead (Nat.ne_of_gt (hN.pos _ hnode)) hnext ?_
    -- no list leads to the new blocks yet
    rw [Rep.append_next_of_not_mem hN hnodes h₁.sound.linked hnode (by omega)
      (h.addr_fresh hin hgranted.apart _ hmem _)]
    exact hnext
  rw [carveInto, Process.carveInto, carve_eq hcore, hrun, Option.bind_some]
  dsimp only
  rw [happend]
  rfl

/-- **A batch of no blocks** ends the program: `append` is given a null pointer. -/
theorem carveInto_zero (hcore : core < c.coreN) : carveInto c s l core size 0 p = none := by
  rw [carveInto, carve_eq hcore, carve_zero, Option.bind_some]
  dsimp only
  rw [append, check_neg (fun hne => hne rfl)]
  rfl

end Carving

end Debug

end FCMalloc
