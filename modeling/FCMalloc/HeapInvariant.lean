import FCMalloc.Allocator
import FCMalloc.ArenaSafety
import Mathlib.Data.List.Pairwise

/-!
# FCMalloc.HeapInvariant

The invariant of the shared heap, and what each piece of a call does to it.

`HeapInv c s q` says that the process `s` represents the queues `q`, that every block
carved lies in a range the arenas handed out, apart from every other block, with its
header intact, and that a block is on a queue only if the queue is for its core and
its class. Three kinds of change preserve it:

* list operations (`HeapInv.moved`), if every block stays on queues of its tag;
* writes outside all headers (`HeapInv.setMem`): client stores, `memcpy`, `memset` and
  `FirstTouch`, which clears an arena nothing was handed out of;
* carving (`HeapInv.carveServed`), which adds the blocks of a new range to one queue.

The lemmas keep the new queues explicit. `Served` is the part of them that ownership
needs: which block, if any, left the queues.
-/

namespace FCMalloc

open ByteMemory GlobalMemoryManager LocalMemoryManager

/-- The header addresses of blocks. -/
def nodes (carved : List Block) : Set Nat := { a | ∃ b ∈ carved, b.addr = a }

/-- A block of a class the table has blocks for, inside a range handed out. -/
structure BlockOk (c : Config) (ranges : List Extent) (b : Block) : Prop where
  core_lt : b.core < c.coreN
  sizes : ∃ i : SizeClass, 3 ≤ i.val ∧ i.val ≤ 62 ∧ 0 < c.nPerSize i ∧ b.size = 2 ^ i.val
  within : ∃ r ∈ ranges, b.extent.Within r
  aligned : 16 ∣ c.pageSize → 16 ∣ b.addr

/-- A size is of one class. -/
theorem sizeClass_unique {i i' : SizeClass} {size : Nat} (h : size = 2 ^ i.val)
    (h' : size = 2 ^ i'.val) : i = i' :=
  Fin.ext (Nat.pow_right_injective (Nat.le_refl 2) (h.symm.trans h'))

/-- There are blocks of a class only if it has a batch. -/
theorem BlockOk.batch {c : Config} {ranges : List Extent} {b : Block} {i : SizeClass}
    (h : BlockOk c ranges b) (hsize : b.size = 2 ^ i.val) : 0 < c.nPerSize i := by
  obtain ⟨i', -, -, hpos, hsize'⟩ := h.sizes
  rwa [sizeClass_unique hsize hsize']

/-- The heap invariant. -/
structure HeapInv (c : Config) (s : Process) (q : QueueId → List Nat) : Prop where
  arena : MmapManager.ArenaInv c s.mm
  pages : ∀ a < c.threadN, c.pageSize ∣ s.mm.pools a ∧ c.pageSize ∣ s.mm.offsets a
  sound : Sound (nodes s.carved) s.store q
  headed : ∀ b ∈ s.carved, Headed c s.store.mem b
  blocks : ∀ b ∈ s.carved, BlockOk c s.mm.ranges b
  apart : s.carved.Pairwise fun b b' => b.extent.Apart b'.extent
  tags : ∀ k, ∀ a ∈ q k, ∃ b ∈ s.carved, b.addr = a ∧ listCore c k.1 = some b.core ∧
    b.size = 2 ^ k.2.val

/-- Every element of `q'` was on a queue of its tag in `q`. -/
def Sourced (c : Config) (q q' : QueueId → List Nat) : Prop :=
  ∀ k, ∀ a ∈ q' k, ∃ k', queueTag c k' = queueTag c k ∧ a ∈ q k'

/-- The bytes of the blocks' bodies are the same in both memories. -/
def SameBodies (carved : List Block) (mem mem' : Memory) : Prop :=
  ∀ b ∈ carved, ∀ x, b.body ≤ x → x < b.body + b.size → mem' x = mem x

theorem SameBodies.trans {carved : List Block} {mem mem' mem'' : Memory}
    (h : SameBodies carved mem mem') (h' : SameBodies carved mem' mem'') :
    SameBodies carved mem mem'' :=
  fun b hb x hx hx' => (h' b hb x hx hx').trans (h b hb x hx hx')

theorem SameBodies.mono {carved carved' : List Block} {mem mem' : Memory}
    (h : SameBodies carved' mem mem') (hsub : ∀ b ∈ carved, b ∈ carved') :
    SameBodies carved mem mem' :=
  fun b hb => h b (hsub b hb)

namespace HeapInv

variable {c : Config} {s s' : Process} {q q' q₁ : QueueId → List Nat} {store : Store ListId}
  {b b' : Block} {i : SizeClass} {j k size n : Nat} {l : ListId}

theorem mem_nodes (hb : b ∈ s.carved) : b.addr ∈ nodes s.carved := ⟨b, hb, rfl⟩

/-- Two blocks carved overlap only if they are the same. -/
theorem apart_of_ne (h : HeapInv c s q) (hb : b ∈ s.carved) (hb' : b' ∈ s.carved) (hne : b ≠ b') :
    b.extent.Apart b'.extent := by
  have : Std.Symm fun b b' : Block => b.extent.Apart b'.extent := ⟨fun _ _ => Extent.Apart.symm⟩
  exact h.apart.forall hb hb' hne

theorem addr_inj (h : HeapInv c s q) (hb : b ∈ s.carved) (hb' : b' ∈ s.carved)
    (heq : b.addr = b'.addr) : b = b' := by
  by_contra hne
  have hin : b.addr ∈ b.extent := ⟨Nat.le_refl _, by
    simp only [Block.extent, headerSize]
    omega⟩
  refine h.apart_of_ne hb hb' hne _ hin ⟨?_, ?_⟩
  · simp only [Block.extent]
    omega
  · simp only [Block.extent, headerSize]
    omega

/-- A block carved later has another header. -/
theorem addr_ne_of_append {old new : List Block} (h : HeapInv c s q)
    (hcarved : s.carved = old ++ new) (hb : b ∈ old) (hb' : b' ∈ new) : b.addr ≠ b'.addr := by
  intro heq
  have happart := h.apart
  rw [hcarved, List.pairwise_append] at happart
  refine happart.2.2 b hb b' hb' b.addr ⟨Nat.le_refl _, ?_⟩ ⟨?_, ?_⟩
  · simp only [Block.extent, headerSize]
    omega
  · simp only [Block.extent]
    omega
  · simp only [Block.extent, headerSize]
    omega

theorem body_inj (h : HeapInv c s q) (hb : b ∈ s.carved) (hb' : b' ∈ s.carved)
    (heq : b.body = b'.body) : b = b' :=
  h.addr_inj hb hb' (Nat.add_right_cancel heq)

/-- The header in front of a body pointer. -/
theorem headerOf_body (h : HeapInv c s q) (hb : b ∈ s.carved) : headerOf b.body = b.addr := by
  have := h.sound.headers.lt b.addr (mem_nodes hb)
  exact FCMalloc.headerOf_body (by unfold headerSize at this; omega)

theorem ptrToSize (h : HeapInv c s q) (hb : b ∈ s.carved) :
    MemUtil.ptrToSize s.store.mem b.body = b.size := by
  rw [MemUtil.ptrToSize, h.headerOf_body hb, (h.headed b hb).size]

theorem ptrToCore (h : HeapInv c s q) (hb : b ∈ s.carved) :
    MemUtil.ptrToCore s.store.mem b.body = b.core := by
  have hcore := (h.blocks b hb).core_lt
  have hint := c.coreN_lt
  rw [MemUtil.ptrToCore, h.headerOf_body hb, (h.headed b hb).core]
  exact Nat.mod_eq_of_lt (by omega)

/-- The class of a block's stored size. -/
theorem sizeClass_size (h : HeapInv c s q) (hb : b ∈ s.carved) :
    b.size = 2 ^ (sizeClass b.size).val := by
  obtain ⟨i, hlow, hhigh, -, hsize⟩ := (h.blocks b hb).sizes
  rw [sizeClass_val, hsize, logarithm2_two_pow hlow hhigh]

theorem addr_lt (h : HeapInv c s q) (hb : b ∈ s.carved) : 0 < b.addr ∧ b.addr + headerSize < 2 ^ 64 :=
  ⟨h.sound.headers.pos _ (mem_nodes hb), h.sound.headers.lt _ (mem_nodes hb)⟩

theorem body_ne_zero (b : Block) : b.body ≠ 0 := by
  unfold Block.body headerSize
  omega

/-- A body lies outside every header. -/
theorem body_outside {x : Nat} (h : HeapInv c s q) (hb : b ∈ s.carved) (hb' : b' ∈ s.carved)
    (hx : b.body ≤ x) (hx' : x < b.body + b.size) : x < b'.addr ∨ b'.addr + headerSize ≤ x := by
  by_cases hbb : b = b'
  · subst hbb
    exact Or.inr hx
  · by_contra hin
    rw [not_or, Nat.not_lt, Nat.not_le] at hin
    refine h.apart_of_ne hb hb' hbb x ⟨?_, ?_⟩ ⟨hin.1, ?_⟩
    · simp only [Block.extent, Block.body] at *
      omega
    · simp only [Block.extent, Block.body] at *
      omega
    · simp only [Block.extent] at *
      omega

/-- Links are kept outside the bodies. -/
theorem sameBodies_links {mem : Memory} (h : HeapInv c s q)
    (hlinks : OnlyLinks (nodes s.carved) s.store.mem mem) :
    SameBodies s.carved s.store.mem mem := by
  intro b hb x hx hx'
  refine hlinks.of_outside ?_
  rintro a ⟨b', hb', rfl⟩
  exact h.body_outside hb hb' hx hx'

/-- A queue of a class without a batch is empty. -/
theorem queue_nil (h : HeapInv c s q) (hn : c.nPerSize i ≤ 0) : q (l, i) = [] := by
  refine List.eq_nil_iff_forall_not_mem.mpr fun a ha => ?_
  obtain ⟨b, hb, -, -, hsize⟩ := h.tags (l, i) a ha
  exact absurd ((h.blocks b hb).batch hsize) (Int.not_lt.mpr hn)

/-- **List operations**, if what ends up on a queue belongs there. -/
theorem relisted (h : HeapInv c s q) (hmoved : Moved (nodes s.carved) s.store store q')
    (htags : ∀ k, ∀ a ∈ q' k, ∃ b ∈ s.carved, b.addr = a ∧ listCore c k.1 = some b.core ∧
      b.size = 2 ^ k.2.val) : HeapInv c { s with store } q' where
  arena := h.arena
  pages := h.pages
  sound := hmoved.sound
  headed b hb := hmoved.links.headed h.sound.headers (mem_nodes hb) (h.headed b hb)
  blocks := h.blocks
  apart := h.apart
  tags := htags

/-- List operations that keep blocks on queues of their tag. -/
theorem moved (h : HeapInv c s q) (hmoved : Moved (nodes s.carved) s.store store q')
    (hsrc : Sourced c q q') : HeapInv c { s with store } q' := by
  refine h.relisted hmoved fun k a ha => ?_
  obtain ⟨k', htag, ha'⟩ := hsrc k a ha
  obtain ⟨b, hb, haddr, hcore, hsize⟩ := h.tags k' a ha'
  obtain ⟨hlist, hclass⟩ := queueTag_inj htag
  exact ⟨b, hb, haddr, hlist ▸ hcore, hclass ▸ hsize⟩

/-- **Writes outside all headers.** -/
theorem setMem (h : HeapInv c s q) (mem : Memory)
    (hag : ∀ b ∈ s.carved, ∀ x, b.addr ≤ x → x < b.addr + headerSize → mem x = s.store.mem x) :
    HeapInv c (s.setMem mem) q := by
  have hfield : ∀ b ∈ s.carved, ∀ f, readField mem b.addr f = readField s.store.mem b.addr f :=
    fun b hb f => readField_congr (hag b hb)
  have hnext : ∀ a ∈ nodes s.carved, (s.setMem mem).store.next a = s.store.next a := by
    rintro a ⟨b, hb, rfl⟩
    exact hfield b hb .next
  constructor
  case arena => exact h.arena
  case pages => exact h.pages
  case sound =>
    refine ⟨⟨h.sound.nodes, ?_, fun a ha hout => ?_⟩, h.sound.headers, ?_⟩
    · exact h.sound.linked.congr fun k a ha => hnext a (h.sound.nodes k a ha)
    · rw [hnext a ha]
      exact h.sound.loose a ha hout
    · rintro a ⟨b, hb, rfl⟩
      exact (hfield b hb .bodyAddr).trans (h.sound.body _ (mem_nodes hb))
  case headed => exact fun b hb => (h.headed b hb).congr fun f _ => hfield b hb f
  case blocks => exact h.blocks
  case apart => exact h.apart
  case tags => exact h.tags

/-- A write inside the body of a block is outside all headers. -/
theorem setMem_body {mem : Memory} (h : HeapInv c s q) (hb : b ∈ s.carved)
    (hag : ∀ x, x < b.body ∨ b.body + b.size ≤ x → mem x = s.store.mem x) :
    HeapInv c (s.setMem mem) q := by
  refine h.setMem mem fun b' hb' x hx hx' => hag x ?_
  by_contra hin
  rw [not_or, Nat.not_lt, Nat.not_le] at hin
  have := h.body_outside hb hb' hin.1 hin.2
  omega

/-! ### Serving -/

/-- The queues `q₁` hold what `q` held, each block on a queue of its tag. -/
structure Dealt (c : Config) (q q₁ : QueueId → List Nat) : Prop where
  reshuffle : Reshuffle (queueTag c) q q₁
  separated : Separated q₁

/-- A call took the front of queue `k`: `ptr` is the body of a block of that queue's core
and class, which alone left the queues, or null, and then none did. -/
def Served (c : Config) (s : Process) (q q' : QueueId → List Nat) (k : QueueId) (ptr : Nat) : Prop :=
  (ptr = 0 ∧ ∀ a, Queued q' a ↔ Queued q a) ∨
    ∃ b ∈ s.carved, ptr = b.body ∧ listCore c k.1 = some b.core ∧ b.size = 2 ^ k.2.val ∧
      Queued q b.addr ∧ ∀ a, Queued q' a ↔ Queued q a ∧ a ≠ b.addr

theorem served_of_dealt {k : QueueId} (h : HeapInv c s q) (hdealt : Dealt c q q₁) :
    Served c s q (dequeue q₁ k) k (frontBody (q₁ k)) := by
  have hsame : ∀ a, Queued q₁ a ↔ Queued q a := fun a => hdealt.reshuffle.queued_iff
  cases hq : q₁ k with
  | nil =>
      rw [dequeue_of_nil hq]
      exact Or.inl ⟨rfl, hsame⟩
  | cons a t =>
      obtain ⟨k', htag, ha⟩ := hdealt.reshuffle.source k a (by simp [hq])
      obtain ⟨b, hb, rfl, hcore, hsize⟩ := h.tags k' _ ha
      obtain ⟨hlist, hclass⟩ := queueTag_inj htag
      refine Or.inr ⟨b, hb, rfl, hlist ▸ hcore, hclass ▸ hsize, ⟨k', ha⟩, fun a => ?_⟩
      rw [queued_dequeue hdealt.separated hq, hsame]

theorem sourced_dequeue {k : QueueId} (hdealt : Dealt c q q₁) : Sourced c q (dequeue q₁ k) :=
  fun k' a ha => hdealt.reshuffle.source k' a (mem_of_mem_dequeue ha)

theorem dealt_refl (h : HeapInv c s q) : Dealt c q q := ⟨Reshuffle.refl q, h.sound.linked.sep⟩

theorem dealt_own (h : HeapInv c s q) (hj : j < managerN c) :
    Dealt c q ((managerPools c j).ownQueues q i) := by
  unfold ownQueues
  split
  · have hne : ((managerPools c j).mallocList, i) ≠
        ((managerPools c j).freeLists (managerPools c j).core, i) := fun heq =>
      mallocList_ne_freeLists hj hj (core_lt hj) (congrArg Prod.fst heq)
    have htag : queueTag c ((managerPools c j).mallocList, i) =
        queueTag c ((managerPools c j).freeLists (managerPools c j).core, i) := by
      rw [queueTag, queueTag, listCore_mallocList hj, listCore_freeLists hj (core_lt hj)]
    exact ⟨Reshuffle.swapped hne htag, h.sound.linked.sep.swapped hne⟩
  · exact h.dealt_refl

theorem dealt_pool (h : HeapInv c s q) (hj : j < managerN c) :
    Dealt c q (CommonMemoryPool.poolQueues c q (managerPools c j).mallocList
      (managerPools c j).core i) := by
  have hne : ((.poolsPerCore (managerPools c j).core, i) : QueueId) ≠
      ((managerPools c j).mallocList, i) := fun heq =>
    mallocList_ne_pool (congrArg Prod.fst heq).symm
  have htag : queueTag c (.poolsPerCore (managerPools c j).core, i) =
      queueTag c ((managerPools c j).mallocList, i) := by
    rw [queueTag, queueTag, listCore_mallocList hj, listCore_pool (core_lt hj)]
  exact ⟨Reshuffle.moveFront hne htag, h.sound.linked.sep.moveFront hne⟩

/-- The part of `Malloc` before the first lock. -/
theorem mallocOwn (h : HeapInv c s q) (hj : j < managerN c) (size : Nat) :
    let m := managerPools c j
    let k : QueueId := (m.mallocList, sizeClass size)
    (m.mallocOwn s.store size).1 = frontBody (m.ownQueues q (sizeClass size) k) ∧
      HeapInv c { s with store := (m.mallocOwn s.store size).2 }
        (dequeue (m.ownQueues q (sizeClass size)) k) := by
  have hcore : (managerPools c j).core < c.coreN := core_lt hj
  obtain ⟨hptr, hmoved⟩ := mallocOwn_moved h.sound (mallocList_ne_freeLists hj hj hcore) size
  exact ⟨hptr, h.moved hmoved (sourced_dequeue (h.dealt_own hj))⟩

/-- The section under `mtxsPerCore_[core]`, and the retry after it. -/
theorem mallocPool (h : HeapInv c s q) (hj : j < managerN c) (hsize : size ≠ 0) :
    let m := managerPools c j
    let k : QueueId := (m.mallocList, sizeClass size)
    let q₁ := CommonMemoryPool.poolQueues c q m.mallocList m.core (sizeClass size)
    let r := CommonMemoryPool.malloc c s.store m.mallocList m.core size
    r.1 = frontBody (q₁ k) ∧ HeapInv c { s with store := r.2 } (dequeue q₁ k) := by
  have hne : (managerPools c j).mallocList ≠ .poolsPerCore (managerPools c j).core :=
    mallocList_ne_pool
  obtain ⟨hptr, hmoved⟩ := CommonMemoryPool.malloc_moved (c := c) h.sound hne hsize
  exact ⟨hptr, h.moved hmoved (sourced_dequeue (h.dealt_pool hj))⟩

/-- The last `malloc_->Malloc`. -/
theorem mallocLast (h : HeapInv c s q) (m : LocalMemoryManager) (size : Nat) :
    let k : QueueId := (m.mallocList, sizeClass size)
    (m.mallocLast s size).1 = frontBody (q k) ∧
      HeapInv c (m.mallocLast s size).2 (dequeue q k) := by
  obtain ⟨hptr, hmoved⟩ := h.sound.malloc m.mallocList size
  have hinv := h.moved hmoved (sourced_dequeue h.dealt_refl)
  refine ⟨hptr, ?_⟩
  rw [LocalMemoryManager.mallocLast]
  dsimp only
  split
  · exact hinv.moved (hinv.sound.moved hinv.sound.toRep.setErrno (OnlyLinks.refl _))
      fun k a ha => ⟨k, rfl, ha⟩
  · exact hinv

end HeapInv

end FCMalloc
