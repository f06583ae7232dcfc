import FCMalloc.OwnershipRuns

/-!
# FCMalloc.Placement

Where blocks are, and what their headers say, in every state of every run.

The lists are read off memory here: `World.Lists w q` says that following `next_` from
`heads_` gives `q` and ends, and that `lasts_` caches the ends. A list belongs to a
`Holder`: a manager, for one of its two kinds of list, or a common pool. The results are
those of the ownership invariant in these terms: every block is live or on one list once
(`carved_once`), in the class of its size (`class_size`), and among blocks of its core
(`core_affinity`).
-/

namespace FCMalloc.Machine

open ByteMemory GlobalMemoryManager

/-- Following `next_` from the heads gives the queues `q`, whose ends are cached. -/
def World.Lists (w : World) (q : QueueId → List Nat) : Prop :=
  ∀ k, Chain 0 w.shared.heap.store.next (w.shared.heap.store.head k) (q k) ∧
    w.shared.heap.store.last k = (q k).getLastD 0

/-- What holds a list for each size class. -/
inductive Holder
  | malloc (manager : Nat)
  | free (manager core : Nat)
  | pool (core : Nat)

namespace Holder

variable (c : Config)

/-- The list: `malloc_` or `free_[core]` of a manager, or `poolsPerCore_[core]`. -/
def list : Holder → ListId
  | malloc j => (managerPools c j).mallocList
  | free j k => (managerPools c j).freeLists k
  | pool k => .poolsPerCore k

/-- The core whose blocks the list is for. -/
def core : Holder → Nat
  | malloc j => (managerPools c j).core
  | free _ k | pool k => k

/-- The indices are in range. -/
def Valid : Holder → Prop
  | malloc j => j < managerN c
  | free j k => j < managerN c ∧ k < c.coreN
  | pool k => k < c.coreN

variable {c} {h h' : Holder} {k : Nat} {l : ListId}

theorem listCore (hv : h.Valid c) : listCore c (h.list c) = some (h.core c) := by
  cases h with
  | malloc j => exact listCore_mallocList hv
  | free j k => exact listCore_freeLists hv.1 hv.2
  | pool k => exact listCore_pool hv

/-- Every list of some core has a holder. -/
theorem exists_of_listCore (hl : GlobalMemoryManager.listCore c l = some k) :
    ∃ h : Holder, h.Valid c ∧ h.list c = l := by
  obtain ⟨j, hj, rfl, -⟩ | ⟨j, hj, hk, rfl⟩ | ⟨hk, rfl⟩ := list_cases hl
  · exact ⟨malloc j, hj, rfl⟩
  · exact ⟨free j k, ⟨hj, hk⟩, rfl⟩
  · exact ⟨pool k, hk, rfl⟩

/-- Different holders hold different lists. -/
theorem list_inj (hv : h.Valid c) (hv' : h'.Valid c) (heq : h.list c = h'.list c) : h = h' := by
  cases h with
  | malloc j =>
      cases h' with
      | malloc j' => rw [mallocList_inj hv hv' heq]
      | free j' k' => exact absurd heq (mallocList_ne_freeLists hv hv'.1 hv'.2)
      | pool k' => exact absurd heq mallocList_ne_pool
  | free j k =>
      cases h' with
      | malloc j' => exact absurd heq.symm (mallocList_ne_freeLists hv' hv.1 hv.2)
      | free j' k' =>
          obtain ⟨rfl, rfl⟩ := freeLists_inj hv.1 hv'.1 hv.2 hv'.2 heq
          rfl
      | pool k' => exact absurd heq (freeLists_ne_pool hv.1 hv.2)
  | pool k =>
      cases h' with
      | malloc j' => exact absurd heq.symm mallocList_ne_pool
      | free j' k' => exact absurd heq.symm (freeLists_ne_pool hv'.1 hv'.2)
      | pool k' => rw [ListId.poolsPerCore.inj heq]

end Holder

/-- A block is live and on no list, or dead and once on one list of one holder. -/
def Placed (c : Config) (w : World) (q : QueueId → List Nat) (b : Block) : Prop :=
  (b.body ∈ w.shared.live ∧ ∀ k, b.addr ∉ q k) ∨
    (b.body ∉ w.shared.live ∧ ∃ h : Holder, ∃ i, h.Valid c ∧ (q (h.list c, i)).count b.addr = 1 ∧
      ∀ h' i', h'.Valid c → b.addr ∈ q (h'.list c, i') → h' = h ∧ i' = i)

/-- What the header in front of a returned pointer says: it is one, 48 bytes before, of a
body that is large enough, in the class of the request if the block came off a list. -/
structure Returned.HeaderOk (w : World) (e : Returned) : Prop where
  header : ∃ b ∈ w.shared.heap.carved, b.addr + headerSize = e.ptr
  bodyAddr : readField w.shared.heap.store.mem (e.ptr - headerSize) .bodyAddr = e.ptr
  size_le : e.size ≤ readField w.shared.heap.store.mem (e.ptr - headerSize) .size
  class_eq : e.core.isSome →
    sizeClass (readField w.shared.heap.store.mem (e.ptr - headerSize) .size) = sizeClass e.size

/-! ### Every state of every run -/

section Results

variable {c : Config} {w : World} {q : QueueId → List Nat} {b : Block} {e : Returned}

theorem Owned.lists (h : Owned c w.shared q) : w.Lists q := fun k =>
  ⟨h.heap.sound.linked.chain k, h.heap.sound.linked.last_eq k⟩

theorem World.Lists.unique {q' : QueueId → List Nat} (h : w.Lists q) (h' : w.Lists q') : q = q' :=
  funext fun k => (h k).1.unique (h' k).1

theorem Owned.placed (h : Owned c w.shared q) (hb : b ∈ w.shared.heap.carved) : Placed c w q b := by
  by_cases hlive : b.body ∈ w.shared.live
  · exact Or.inl ⟨hlive, fun k hk => (h.live_iff b hb).mp hlive ⟨k, hk⟩⟩
  · obtain ⟨⟨l, i⟩, hk⟩ := not_not.mp (mt (h.live_iff b hb).mpr hlive)
    obtain ⟨b', -, -, hcore, -⟩ := h.heap.tags (l, i) _ hk
    obtain ⟨holder, hv, rfl⟩ := Holder.exists_of_listCore hcore
    have hsep := h.heap.sound.linked.sep
    refine Or.inr ⟨hlive, holder, i, hv, List.count_eq_one_of_mem (hsep.nodup _) hk, ?_⟩
    intro h' i' hv' hk'
    obtain ⟨hlist, rfl⟩ := Prod.mk.inj (hsep.eq_of_mem hk' hk)
    exact ⟨Holder.list_inj hv' hv hlist, rfl⟩

theorem Owned.headerOk (h : Owned c w.shared q) (he : e ∈ w.shared.returned) (hne : e.ptr ≠ 0) :
    e.HeaderOk w := by
  obtain ⟨b, hb, hbody, hsize, hserved⟩ := h.returned e he hne
  have haddr : e.ptr - headerSize = b.addr := by
    rw [← hbody, Block.body]
    omega
  have hheaded := h.heap.headed b hb
  refine ⟨⟨b, hb, hbody⟩, ?_, ?_, fun hcore => ?_⟩
  · rw [haddr, hheaded.bodyAddr, hbody]
  · rwa [haddr, hheaded.size]
  · obtain ⟨core, hcore⟩ := Option.isSome_iff_exists.mp hcore
    have hclass := h.heap.sizeClass_size hb
    rw [haddr, hheaded.size]
    exact sizeClass_unique hclass (hserved core hcore).2

/-- **One place.** In every state of every run each block ever carved is live or exactly
once on exactly one list of exactly one holder, and everything live is a block. -/
theorem carved_once (c : Config) (base : Nat → Nat) (w : World) (hc : Setting c)
    (hbase : c.FreshBase base) (hrun : (system c base).Run (Legal c) w) :
    ∃ q, w.Lists q ∧ (∀ b ∈ w.shared.heap.carved, Placed c w q b) ∧
      w.shared.live.Nodup ∧ (∀ p ∈ w.shared.live, ∃ b ∈ w.shared.heap.carved, b.body = p) ∧
      w.shared.heap.carved.Pairwise fun b b' => b.extent.Apart b'.extent := by
  obtain ⟨q, hq⟩ := (OwnershipInv.run hc hbase hrun).owned
  exact ⟨q, hq.lists, fun b => hq.placed, hq.live_nodup, hq.live_carved, hq.heap.apart⟩

/-- After `carveRun` one block is live and one is on a list. -/
theorem carved_once_carveRun : ∃ w : World, w.shared.heap.carved.length = 2 ∧
    w.shared.live.length = 1 ∧
    ∃ q, w.Lists q ∧ ∀ b ∈ w.shared.heap.carved, Placed MmapManager.oneCore w q b := by
  obtain ⟨q, hlists, hplaced, -⟩ := carved_once _ _ _ oneCore_setting (by decide) carveRun_legal
  exact ⟨_, by decide +kernel, by decide +kernel, q, hlists, hplaced⟩

/-- **Classes.** In every state of every run a block on a list of class `i` has size `2 ^ i`,
which is of class `i` again, and every pointer returned so far is aligned and has a header
of a sufficient size in front of it. -/
theorem class_size (c : Config) (base : Nat → Nat) (w : World) (hc : Setting c)
    (hbase : c.FreshBase base) (hpage : 16 ∣ c.pageSize)
    (hrun : (system c base).Run (Legal c) w) :
    (∃ q, w.Lists q ∧ ∀ l i, ∀ a ∈ q (l, i), 3 ≤ i.val ∧
      readField w.shared.heap.store.mem a .size = 2 ^ i.val ∧
      sizeClass (readField w.shared.heap.store.mem a .size) = i) ∧
    ∀ e ∈ w.shared.returned, e.ptr ≠ 0 → 16 ∣ e.ptr ∧ e.HeaderOk w := by
  obtain ⟨q, hq⟩ := (OwnershipInv.run hc hbase hrun).owned
  refine ⟨⟨q, hq.lists, fun l i a ha => ?_⟩, fun e he hne => ⟨?_, hq.headerOk he hne⟩⟩
  · obtain ⟨b, hb, rfl, -, hsize⟩ := hq.heap.tags (l, i) a ha
    obtain ⟨i', hlow, hhigh, -, hsize'⟩ := (hq.heap.blocks b hb).sizes
    have hclass : i' = i := sizeClass_unique hsize' hsize
    subst hclass
    rw [(hq.heap.headed b hb).size]
    refine ⟨hlow, hsize, Fin.ext ?_⟩
    rw [sizeClass_val, hsize, logarithm2_two_pow hlow hhigh]
  · obtain ⟨b, hb, hbody, -⟩ := hq.returned e he hne
    rw [← hbody, Block.body]
    exact Nat.dvd_add ((hq.heap.blocks b hb).aligned hpage) (by decide)

/-- The pointer `carveRun` returns is not null, aligned and has its header in front of it. -/
theorem class_size_carveRun : ∃ w : World, w.shared.returned.length = 1 ∧
    ∀ e ∈ w.shared.returned, e.ptr ≠ 0 ∧ 16 ∣ e.ptr ∧ e.HeaderOk w := by
  have hptr : ∀ e ∈ (Option.get _ carveRun_made).shared.returned, e.ptr ≠ 0 := by decide +kernel
  have hsize := (class_size _ _ _ oneCore_setting (by decide) (by decide) carveRun_legal).2
  exact ⟨_, by decide +kernel, fun e he => ⟨hptr e he, hsize e he (hptr e he)⟩⟩

/-- **Core affinity.** In every state of every run a list for core `k` holds blocks carved
for core `k` only; headers say what carving stored there, in this state and after any
further step; and a block served by a manager of core `k` was carved for core `k`. -/
theorem core_affinity (c : Config) (base : Nat → Nat) (w : World) (hc : Setting c)
    (hbase : c.FreshBase base) (hrun : (system c base).Run (Legal c) w) :
    (∃ q, w.Lists q ∧ ∀ h : Holder, h.Valid c → ∀ i, ∀ a ∈ q (h.list c, i),
      readField w.shared.heap.store.mem a .core = h.core c) ∧
    (∀ b ∈ w.shared.heap.carved, Headed c w.shared.heap.store.mem b) ∧
    (∀ t a w', Legal c w (t, a) → w.step c t a = .next w' → ∀ b ∈ w.shared.heap.carved,
      b ∈ w'.shared.heap.carved ∧ Headed c w'.shared.heap.store.mem b) ∧
    (∀ e ∈ w.shared.returned, e.ptr ≠ 0 → ∀ core, e.core = some core →
      readField w.shared.heap.store.mem (e.ptr - headerSize) .core = core ∧
      ∀ b ∈ w.shared.heap.carved, b.body = e.ptr → b.core = core) := by
  have hinv := OwnershipInv.run hc hbase hrun
  obtain ⟨q, hq⟩ := hinv.owned
  refine ⟨⟨q, hq.lists, fun h hv i a ha => ?_⟩, hq.heap.headed, fun t a w' hlegal hstep b hb => ?_,
    fun e he hne core hcore => ?_⟩
  · obtain ⟨b, hb, rfl, hcore, -⟩ := hq.heap.tags (h.list c, i) a ha
    rw [(hq.heap.headed b hb).core]
    exact Option.some.inj (hcore.symm.trans (Holder.listCore hv))
  · obtain ⟨hinv', hsub⟩ := hinv.step hc hlegal hstep
    obtain ⟨q', hq'⟩ := hinv'.owned
    exact ⟨hsub.subset hb, hq'.heap.headed b (hsub.subset hb)⟩
  · obtain ⟨b, hb, hbody, -, hserved⟩ := hq.returned e he hne
    have haddr : e.ptr - headerSize = b.addr := by
      rw [← hbody, Block.body]
      omega
    refine ⟨?_, fun b' hb' hbody' => ?_⟩
    · rw [haddr, (hq.heap.headed b hb).core, (hserved core hcore).1]
    · rw [hq.heap.body_inj hb' hb (hbody'.trans hbody.symm), (hserved core hcore).1]

/-- In `countedRun` the main thread, on core 0, has freed a block of core 1: the list it is on is
for that core. -/
theorem core_affinity_countedRun : ∃ (w : World) (q : QueueId → List Nat), w.Lists q ∧
    q ((Holder.free 0 1).list twoCores, 17) = [140737488355328] ∧
    readField w.shared.heap.store.mem 140737488355328 .core = 1 := by
  obtain ⟨q, hq, hcore⟩ := (core_affinity _ _ _ twoCores_setting (by decide) countedRun_legal).1
  let s := (Option.get _ countedRun_trades).shared.heap.store
  have hchain : Chain 0 s.next (s.head ((Holder.free 0 1).list twoCores, 17)) [140737488355328] :=
    ⟨by decide +kernel, by decide, (by decide +kernel : s.next 140737488355328 = 0)⟩
  have hlist : q ((Holder.free 0 1).list twoCores, 17) = [140737488355328] :=
    (hq _).1.unique hchain
  refine ⟨_, q, hq, hlist, hcore (.free 0 1) ⟨by decide, by decide⟩ 17 _ ?_⟩
  rw [hlist]
  exact List.mem_cons_self

end Results

end FCMalloc.Machine
