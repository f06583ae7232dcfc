import FCMalloc.HeapInvariant

/-!
# FCMalloc.HeapGrowth

The heap invariant through `MemoryLinkedListManager::Allocate`: first touch, extension,
serving a range, carving it; and through the calls that put blocks back.

A range that `MmapManager::Malloc` has just handed out is `Granted`: on record, inside
the address space, on a page boundary and apart from every block. Carving a granted
range (`HeapInv.carveInto`) is the only step that adds blocks. All of them go, in order,
to the back of one queue.
-/

namespace FCMalloc

open ByteMemory GlobalMemoryManager LocalMemoryManager

/-- `[p, p + len)` was handed out and holds no block yet. -/
structure Granted (s : Process) (c : Config) (p len : Nat) : Prop where
  range : ⟨p, len⟩ ∈ s.mm.ranges
  pos : 0 < p
  lt : p + len < 2 ^ 64
  page : c.pageSize ∣ p
  apart : ∀ b ∈ s.carved, b.extent.Apart ⟨p, len⟩

namespace HeapInv

variable {c : Config} {s : Process} {q : QueueId → List Nat} {b : Block} {mm : MmapManager}
  {a core size n p j m : Nat} {ret : Nat} {l : ListId}

/-! ### The arena -/

/-- Another arena manager that keeps its invariant and the ranges on record. -/
theorem withMm (h : HeapInv c s q) (harena : MmapManager.ArenaInv c mm)
    (hpages : ∀ a < c.threadN, c.pageSize ∣ mm.pools a ∧ c.pageSize ∣ mm.offsets a)
    (hranges : ∀ r ∈ s.mm.ranges, r ∈ mm.ranges) : HeapInv c { s with mm } q where
  arena := harena
  pages := hpages
  sound := h.sound
  headed := h.headed
  blocks b hb := by
    have hok := h.blocks b hb
    obtain ⟨r, hr, hin⟩ := hok.within
    exact { hok with within := ⟨r, hranges r hr, hin⟩ }
  apart := h.apart
  tags := h.tags

/-- The bytes first touch clears are in no block: nothing was handed out of the arena. -/
theorem touched_outside {main : Bool} {touched : List Nat} (h : HeapInv c s q)
    (hcore : core ≤ c.coreN)
    (ht : MmapManager.touchOnce c main s.mm (c.arena main core) = some (mm, touched)) :
    ∀ b ∈ s.carved, ∀ x ∈ b.extent, x ∉ touched := by
  intro b hb x hxb hx
  have ha : c.arena main core < c.threadN := Config.arena_lt hcore
  obtain ⟨-, -, rfl⟩ | ⟨hflag, hw, -⟩ := MmapManager.touchOnce_cases ht
  · exact absurd hx List.not_mem_nil
  · have hbound := (h.arena.pool_add_size_lt ha).2
    unfold MmapManager.firstTouch at hw
    rw [Config.arena_arena] at hw
    have hin := MmapManager.firstTouchLoop_inside (by omega) hw x hx
    -- the whole arena is still its unused tail
    have htail : x ∈ s.mm.tail (c.arena main core) := by
      rw [MmapManager.tail, h.arena.untouched _ ha hflag]
      exact hin
    obtain ⟨r, hr, hwithin⟩ := (h.blocks b hb).within
    exact h.arena.tail_apart _ ha r hr x htail (hwithin.mem hxb)

theorem touched_bodies {main : Bool} {touched : List Nat} (h : HeapInv c s q)
    (hcore : core ≤ c.coreN)
    (ht : MmapManager.touchOnce c main s.mm (c.arena main core) = some (mm, touched)) :
    SameBodies s.carved s.store.mem (clear s.store.mem touched) := by
  intro b hb x hx hx'
  refine clear_of_not_mem (h.touched_outside hcore ht b hb x ⟨?_, ?_⟩)
  · exact Nat.le_trans (Nat.le_add_right _ _) hx
  · simp only [Block.extent, Block.body] at *
    omega

/-- **First touch.** -/
theorem touch {main : Bool} {touched : List Nat} (h : HeapInv c s q) (hcore : core ≤ c.coreN)
    (ht : MmapManager.touchOnce c main s.mm (c.arena main core) = some (mm, touched)) :
    HeapInv c (s.touch mm touched) q := by
  obtain ⟨-, hoffsets, hpools, -, hranges⟩ := MmapManager.touchOnce_frame ht
  have hmem := h.setMem (clear s.store.mem touched) fun b hb x hx hx' =>
    clear_of_not_mem (h.touched_outside hcore ht b hb x ⟨hx, by
      simp only [Block.extent]
      omega⟩)
  refine hmem.withMm (h.arena.touchOnce ht) (fun a ha => ?_) fun r hr => ?_
  · rw [hpools, hoffsets]
    exact h.pages a ha
  · rw [hranges]
    exact hr

/-- Rounding an extension up to pages does not wrap if the request is far from it. -/
theorem allocSize_wrap (hwrap : size + c.pageSize < 2 ^ 64) :
    MmapManager.allocSize size + c.pageSize ≤ 2 ^ 64 := by
  have hpage := c.pageSize_lt
  unfold MmapManager.allocSize oneGB
  split <;> omega

/-- **Extension** replaces the pool of an arena by a fresh mapping that the request fits. -/
theorem extend (h : HeapInv c s q) (ha : a < c.threadN)
    (hfresh : c.Fresh s.mm.maps ret (align (MmapManager.allocSize size) c.pageSize))
    (hwrap : size + c.pageSize < 2 ^ 64) :
    HeapInv c { s with mm := s.mm.extend c a size ret } q ∧
      size ≤ (s.mm.extend c a size ret).sizes a - (s.mm.extend c a size ret).offsets a := by
  have hfit := (align_spec c.pageSize_pos (allocSize_wrap hwrap)).1
  have hle := MmapManager.le_allocSize size
  refine ⟨h.withMm (h.arena.extendBuffer ha hfresh) (fun a' ha' => ?_) fun _ hr => hr, ?_⟩
  · have hpages := h.pages a' ha'
    by_cases haa : a' = a
    · simpa [MmapManager.extend, MmapManager.extendBuffer, haa] using hfresh.2.2.1
    · simpa [MmapManager.extend, MmapManager.extendBuffer, haa] using hpages
  · simp only [MmapManager.extend, MmapManager.extendBuffer, Function.update_self]
    omega

/-- **Serving** a request of whole pages that fits. -/
theorem serve (h : HeapInv c s q) (ha : a < c.threadN)
    (hfit : size ≤ s.mm.sizes a - s.mm.offsets a) (htouched : s.mm.firstTouchFlag a = true)
    (hpages : c.pageSize ∣ size) :
    HeapInv c { s with mm := (s.mm.serve a size).2 } q ∧
      Granted { s with mm := (s.mm.serve a size).2 } c (s.mm.serve a size).1 size := by
  have hp := h.arena.serve_fst ha size
  have hbound := h.arena.pool_add_size_lt ha
  have hoff := h.arena.offset_le a ha
  have hin := h.arena.serve_within_tail ha hfit
  obtain ⟨hpool, hoffset⟩ := h.pages a ha
  refine ⟨h.withMm (h.arena.serve ha hfit htouched) (fun a' ha' => ?_) fun r hr => ?_, ?_⟩
  · have hpages' := h.pages a' ha'
    by_cases haa : a' = a
    · have hsum : u64 (s.mm.offsets a + size) = s.mm.offsets a + size := u64_of_lt (by omega)
      simpa [MmapManager.serve, haa, hsum] using ⟨hpool, Nat.dvd_add hoffset hpages⟩
    · simpa [MmapManager.serve, haa] using hpages'
  · exact List.mem_cons_of_mem _ hr
  · constructor
    case range => exact List.mem_cons_self
    case pos => omega
    case lt => omega
    case page =>
      rw [hp]
      exact Nat.dvd_add hpool hoffset
    case apart =>
      intro b hb
      obtain ⟨r, hr, hwithin⟩ := (h.blocks b hb).within
      exact (h.arena.tail_apart a ha r hr).symm.mono hwithin hin

/-- Arenas other than `a` are as they were. -/
def ArenasKept (a : Nat) (mm mm' : MmapManager) : Prop :=
  ∀ a', a' ≠ a → mm'.sizes a' = mm.sizes a' ∧ mm'.offsets a' = mm.offsets a' ∧
    mm'.firstTouchFlag a' = mm.firstTouchFlag a'

theorem serve_kept (mm : MmapManager) (a size : Nat) : ArenasKept a mm (mm.serve a size).2 := fun a' ha => by
  simp [MmapManager.serve, ha]

theorem touchOnce_kept {main : Bool} {mm' : MmapManager} {touched : List Nat}
    (ht : MmapManager.touchOnce c main mm a = some (mm', touched)) : ArenasKept a mm mm' := by
  obtain ⟨-, rfl, -⟩ | ⟨-, -, rfl⟩ := MmapManager.touchOnce_cases ht
  · exact fun _ _ => ⟨rfl, rfl, rfl⟩
  · exact fun a' ha => by simp [ha]

/-- **`MmapManager::Malloc` up to its report**: a granted range, or an extended arena that
the request fits. -/
theorem enter {main : Bool} {served : Option Nat} {touched : List Nat} (h : HeapInv c s q)
    (hforce : c.forceMmapFlag = true) (hcore : core ≤ c.coreN) (hpages : c.pageSize ∣ size)
    (hwrap : size + c.pageSize < 2 ^ 64)
    (hfresh : s.mm.needsExtension c (c.arena main core) size = true →
      c.Fresh s.mm.maps ret (align (MmapManager.allocSize size) c.pageSize))
    (henter : s.mm.enter c main core size ret = some (served, mm, touched)) :
    HeapInv c (s.touch mm touched) q ∧ ArenasKept (c.arena main core) s.mm mm ∧
      (∀ p, served = some p → Granted (s.touch mm touched) c p size) ∧
      (served = none → size ≤ mm.sizes (c.arena main core) - mm.offsets (c.arena main core) ∧
        mm.firstTouchFlag (c.arena main core) = true) := by
  have ha : c.arena main core < c.threadN := Config.arena_lt hcore
  unfold MmapManager.enter at henter
  obtain ⟨⟨mm₁, w⟩, ht, hr⟩ := Option.map_eq_some_iff.mp henter
  dsimp only at ht hr
  have h₁ := h.touch hcore ht
  have hkept := touchOnce_kept ht
  have hflag := MmapManager.ArenaInv.flag_of_touchOnce ht
  have hneed := MmapManager.needsExtension_touchOnce ht (c.arena main core) size
  obtain ⟨-, -, -, hmaps, -⟩ := MmapManager.touchOnce_frame ht
  split at hr
  case isTrue hyes =>
    simp only [Prod.mk.injEq] at hr
    obtain ⟨hserved, rfl, rfl⟩ := hr
    rw [hneed] at hyes
    have hfresh' := hfresh hyes
    rw [← hmaps] at hfresh'
    obtain ⟨h₂, hfit⟩ := h₁.extend ha hfresh' hwrap
    refine ⟨h₂, fun a' ha' => ?_, by simp [← hserved], fun _ => ⟨hfit, hflag⟩⟩
    have hsame := hkept a' ha'
    simpa [MmapManager.extend, MmapManager.extendBuffer, ha'] using hsame
  case isFalse hno =>
    simp only [Prod.mk.injEq] at hr
    obtain ⟨hserved, rfl, rfl⟩ := hr
    have hfit : size ≤ mm₁.sizes (c.arena main core) - mm₁.offsets (c.arena main core) := by
      have hrest : mm₁.restSize (c.arena main core) = _ := h₁.arena.restSize_eq ha
      simp only [MmapManager.needsExtension, hforce, Bool.and_true, decide_eq_true_eq,
        hrest] at hno
      exact Nat.le_of_not_lt hno
    obtain ⟨h₂, hgranted⟩ := h₁.serve ha hfit hflag hpages
    refine ⟨h₂, fun a' ha' => ?_, fun p hp => ?_, by simp [← hserved]⟩
    · obtain ⟨hs, ho, hf⟩ := hkept a' ha'
      obtain ⟨hs', ho', hf'⟩ := serve_kept mm₁ _ size a' ha'
      exact ⟨hs'.trans hs, ho'.trans ho, hf'.trans hf⟩
    · obtain rfl := Option.some.inj (hserved.trans hp)
      exact hgranted

/-- **`MmapManager::Malloc`** grants a range. -/
theorem mallocArena {main : Bool} {touched : List Nat} (h : HeapInv c s q)
    (hforce : c.forceMmapFlag = true) (hcore : core ≤ c.coreN) (hpages : c.pageSize ∣ size)
    (hwrap : size + c.pageSize < 2 ^ 64)
    (hfresh : s.mm.needsExtension c (c.arena main core) size = true →
      c.Fresh s.mm.maps ret (align (MmapManager.allocSize size) c.pageSize))
    (hm : s.mm.malloc c main core size ret = some (p, mm, touched)) :
    HeapInv c (s.touch mm touched) q ∧ Granted (s.touch mm touched) c p size ∧
      mm.ranges = ⟨p, size⟩ :: s.mm.ranges := by
  have hlt : size < 2 ^ 64 := Nat.lt_of_le_of_lt (Nat.le_add_right _ _) hwrap
  have hlegal : MmapManager.Call.Legal c s.mm ⟨main, core, size, ret⟩ := ⟨hcore, hlt, hfresh⟩
  have hranges : mm.ranges = ⟨p, size⟩ :: s.mm.ranges :=
    (h.arena.malloc hlegal (Or.inr ⟨hforce, allocSize_wrap hwrap⟩) hm).2.2
  rw [MmapManager.malloc_eq] at hm
  obtain ⟨⟨served, mm₁, w⟩, henter, hleave⟩ := Option.map_eq_some_iff.mp hm
  obtain ⟨h₁, -, hserved, hextended⟩ := h.enter hforce hcore hpages hwrap hfresh henter
  cases served with
  | some p' =>
      obtain ⟨rfl, rfl, rfl⟩ : p' = p ∧ mm₁ = mm ∧ w = touched := by
        simpa only [MmapManager.leave, Prod.mk.injEq] using hleave
      exact ⟨h₁, hserved p' rfl, hranges⟩
  | none =>
      have ha : c.arena main core < c.threadN := Config.arena_lt hcore
      obtain ⟨hfit, hflag⟩ := hextended rfl
      have hfinish : mm₁.finishExtended (c.arena main core) size =
          mm₁.serve (c.arena main core) size := h₁.arena.finishExtended_eq ha hfit
      obtain ⟨rfl, rfl, rfl⟩ : (mm₁.serve (c.arena main core) size).1 = p ∧
          (mm₁.serve (c.arena main core) size).2 = mm ∧ w = touched := by
        simpa only [MmapManager.leave, hfinish, Prod.mk.injEq] using hleave
      obtain ⟨h₂, hgranted⟩ := h₁.serve ha hfit hflag hpages
      exact ⟨h₂, hgranted, hranges⟩

/-! ### Carving -/

/-- The size asked of an arena is in whole pages and far from wrapping. -/
theorem mmapSize_wrap (hfits : c.TableFits) (hsize : 0 < size) :
    mmapSize c size (c.batch (sizeClass size)) + c.pageSize < 2 ^ 64 := by
  rcases Nat.eq_zero_or_pos (c.batch (sizeClass size)) with hzero | hpos
  · have hpage := c.pageSize_lt
    rw [hzero, mmapSize_zero]
    omega
  · exact (hfits.batchSizes hsize hpos).fits

/-- Blocks in a range apart from all blocks are apart from them. -/
theorem apart_append {new : List Block} (h : HeapInv c s q)
    (hin : ∀ b ∈ new, b.extent.Within ⟨p, n⟩)
    (hnew : new.Pairwise fun b b' => b.extent.Apart b'.extent)
    (hold : ∀ b ∈ s.carved, b.extent.Apart ⟨p, n⟩) :
    (s.carved ++ new).Pairwise fun b b' => b.extent.Apart b'.extent :=
  List.pairwise_append.mpr ⟨h.apart, hnew, fun b hb b' hb' =>
    (hold b hb).mono (Extent.Within.refl _) (hin b' hb')⟩

/-- The headers old and new lie apart. -/
theorem headerSet_append {new : List Block} (h : HeapInv c s q) (hp : 0 < p)
    (hlt : p + n < 2 ^ 64) (hin : ∀ b ∈ new, b.extent.Within ⟨p, n⟩)
    (hnew : new.Pairwise fun b b' => b.extent.Apart b'.extent)
    (hold : ∀ b ∈ s.carved, b.extent.Apart ⟨p, n⟩) : HeaderSet (nodes (s.carved ++ new)) where
  pos := by
    rintro a ⟨b, hb, rfl⟩
    rcases List.mem_append.mp hb with hb | hb
    · exact (h.addr_lt hb).1
    · exact Nat.lt_of_lt_of_le hp (hin b hb).1
  lt := by
    rintro a ⟨b, hb, rfl⟩
    rcases List.mem_append.mp hb with hb | hb
    · exact (h.addr_lt hb).2
    · have hend := (hin b hb).2
      simp only [Block.extent] at hend
      omega
  apart := by
    rintro a ⟨b, hb, rfl⟩ a' ⟨b', hb', rfl⟩ hne
    exact headers_apart (h.apart_append hin hnew hold) hb hb' hne

/-- Blocks in a range apart from all blocks are on no queue. -/
theorem addr_fresh {new : List Block} (h : HeapInv c s q)
    (hin : ∀ b ∈ new, b.extent.Within ⟨p, n⟩) (hold : ∀ b ∈ s.carved, b.extent.Apart ⟨p, n⟩) :
    ∀ a ∈ new.map Block.addr, ∀ k, a ∉ q k := by
  intro a ha k hk
  obtain ⟨b, hb, rfl⟩ := List.mem_map.mp ha
  obtain ⟨b', hb', haddr, -⟩ := h.tags k _ hk
  have hwithin := hin b hb
  simp only [Extent.Within, Block.extent, headerSize] at hwithin
  refine hold b' hb' b.addr ⟨?_, ?_⟩ ⟨?_, ?_⟩ <;>
    simp only [Block.extent, headerSize] <;> omega

/-- **New blocks** behind a queue of their core and class. -/
theorem grown {new : List Block} {store : Store ListId} {k : QueueId} (h : HeapInv c s q)
    (hrep : Rep (nodes (s.carved ++ new)) store (enqueue q k (new.map Block.addr)))
    (hN : HeaderSet (nodes (s.carved ++ new)))
    (hheaded : ∀ b ∈ s.carved ++ new, Headed c store.mem b)
    (hblocks : ∀ b ∈ new, BlockOk c s.mm.ranges b)
    (hapart : (s.carved ++ new).Pairwise fun b b' => b.extent.Apart b'.extent)
    (htags : ∀ b ∈ new, listCore c k.1 = some b.core ∧ b.size = 2 ^ k.2.val) :
    HeapInv c ⟨store, s.mm, s.g, s.carved ++ new⟩ (enqueue q k (new.map Block.addr)) := by
  constructor
  case arena => exact h.arena
  case pages => exact h.pages
  case sound =>
    refine ⟨hrep, hN, ?_⟩
    rintro a ⟨b, hb, rfl⟩
    exact (hheaded b hb).bodyAddr
  case headed => exact hheaded
  case blocks => exact fun b hb => (List.mem_append.mp hb).elim (h.blocks b) (hblocks b)
  case apart => exact hapart
  case tags =>
    intro k' a ha
    rcases mem_enqueue.mp ha with hold | ⟨rfl, hadd⟩
    · obtain ⟨b, hb, htag⟩ := h.tags k' a hold
      exact ⟨b, List.mem_append_left _ hb, htag⟩
    · obtain ⟨b, hb, rfl⟩ := List.mem_map.mp hadd
      exact ⟨b, List.mem_append_right _ hb, rfl, htags b hb⟩

/-- Carving a granted range writes into no block. -/
theorem unwritten {t : Carving} (hgranted : Granted s c p (mmapSize c size n))
    (hsizes : BatchSizes c size n)
    (hcarved : Carved c s.store.mem p (totalSize size) core (bodySize size) n t) :
    ∀ b ∈ s.carved, ∀ x ∈ b.extent, t.mem x = s.store.mem x := by
  have hroom := hsizes.room
  intro b hb x hx
  refine hcarved.outside x ?_
  by_contra hboth
  refine hgranted.apart b hb x hx ⟨?_, ?_⟩
  · simp only
    omega
  · simp only
    omega

/-- What is carved from a granted range is a proper block. -/
theorem blockOk_new (hgranted : Granted s c p (mmapSize c size n)) (hsizes : BatchSizes c size n)
    (hn : 0 < c.nPerSize (sizeClass size)) (hcore : core < c.coreN)
    (hb : b ∈ blocksFrom p (totalSize size) core (bodySize size) n) :
    BlockOk c s.mm.ranges b := by
  have hin := hsizes.within hb
  obtain ⟨j, -, rfl⟩ := mem_blocksFrom.mp hb
  constructor
  case core_lt => exact hcore
  case sizes => exact ⟨sizeClass size, hsizes.class_ge, hsizes.class_le, hn, hsizes.body⟩
  case within => exact ⟨_, hgranted.range, hin⟩
  case aligned =>
    intro hpage
    exact Nat.dvd_add (hpage.trans hgranted.page) (hsizes.stride_dvd.mul_left j)

/-- The chain of the new blocks, appended. -/
theorem append_carved {t : Carving} (h : HeapInv c s q)
    (hgranted : Granted s c p (mmapSize c size n)) (hsizes : BatchSizes c size n) (hpos : 0 < n)
    (hcarved : Carved c s.store.mem p (totalSize size) core (bodySize size) n t)
    (h₁ : HeapInv c (s.setMem t.mem) q) :
    Rep (nodes (s.carved ++ blocksFrom p (totalSize size) core (bodySize size) n))
      ((s.setMem t.mem).store.append l (sizeClass size) t.head t.pre)
      (enqueue q (l, sizeClass size)
        ((blocksFrom p (totalSize size) core (bodySize size) n).map Block.addr)) := by
  have hin : ∀ b ∈ blocksFrom p (totalSize size) core (bodySize size) n,
      b.extent.Within ⟨p, mmapSize c size n⟩ := fun b hb => hsizes.within hb
  have hnew : (blocksFrom p (totalSize size) core (bodySize size) n).Pairwise
      fun b b' => b.extent.Apart b'.extent := blocksFrom_apart hsizes.stride
  refine Rep.append (h.headerSet_append hgranted.pos hgranted.lt hin hnew hgranted.apart) ?_ ?_
    h₁.sound.toRep hcarved.chain ?_ (blocksFrom_ne_nil hpos) (addr_nodup hnew) ?_
    (h.addr_fresh hin hgranted.apart)
  · rintro a ⟨b, hb, rfl⟩
    exact ⟨b, List.mem_append_left _ hb, rfl⟩
  · rintro a ⟨b, hb, rfl⟩
    exact (List.mem_append.mp hb).imp (fun hb => ⟨b, hb, rfl⟩) fun hb =>
      List.mem_map.mpr ⟨b, hb, rfl⟩
  · rw [hcarved.pre, if_neg (by omega), blocksFrom_last hpos]
  · intro a ha
    obtain ⟨b, hb, rfl⟩ := List.mem_map.mp ha
    exact ⟨b, List.mem_append_right _ hb, rfl⟩

/-- **Carving** a granted range puts its blocks, in order, behind one queue. -/
theorem carveInto (h : HeapInv c s q) (hfits : c.TableFits) (hsize : 0 < size)
    (hn : n = c.batch (sizeClass size)) (hcore : core < c.coreN) (hl : listCore c l = some core)
    (hgranted : Granted s c p (mmapSize c size n)) :
    let new := blocksFrom p (totalSize size) core (bodySize size) n
    ∃ s', s.carveInto c l core size n p = some s' ∧ s'.carved = s.carved ++ new ∧ s'.mm = s.mm ∧
      s'.g = s.g ∧ HeapInv c s' (enqueue q (l, sizeClass size) (new.map Block.addr)) ∧
      SameBodies s.carved s.store.mem s'.store.mem := by
  obtain ⟨hbatch, hint⟩ := hfits.batch_eq (sizeClass size)
  have hnonneg := hfits.nonneg (sizeClass size)
  rcases Nat.eq_zero_or_pos n with rfl | hpos
  · -- a class without a batch has no blocks anywhere
    have hnil : q (l, sizeClass size) = [] := h.queue_nil (by omega)
    refine ⟨s, ?_, (List.append_nil _).symm, rfl, rfl, ?_, fun _ _ _ _ _ => rfl⟩
    · have happend := h.sound.toRep.append_null hnil
      simp only [Process.carveInto, carve_zero, Process.setMem, Option.map_some, List.append_nil,
        happend]
    · rwa [blocksFrom, List.range_zero, List.map_nil, List.map_nil, enqueue_nil]
  have hsizes : BatchSizes c size n := by
    rw [hn]
    exact hfits.batchSizes hsize (by omega)
  have hroom := hsizes.room
  have hend := hgranted.lt
  obtain ⟨t, hrun, hcarved⟩ := carve_spec (n := n) size s.store.mem hgranted.pos
    (by omega) hcore (by omega)
  let new := blocksFrom p (totalSize size) core (bodySize size) n
  have hin : ∀ b ∈ new, b.extent.Within ⟨p, mmapSize c size n⟩ := fun b hb => hsizes.within hb
  have hnew : new.Pairwise fun b b' => b.extent.Apart b'.extent := blocksFrom_apart hsizes.stride
  have hN := h.headerSet_append hgranted.pos hend hin hnew hgranted.apart
  -- the headers are written, then the chain is appended
  have hold := unwritten hgranted hsizes hcarved
  have h₁ : HeapInv c (s.setMem t.mem) q := h.setMem t.mem fun b hb x hx hx' => hold b hb x ⟨hx, by
    simp only [Block.extent]
    omega⟩
  have hnodes : ∀ k, ∀ a ∈ q k, a ∈ nodes s.carved := h.sound.nodes
  have hlinks : OnlyLinks (nodes s.carved) t.mem
      ((s.setMem t.mem).store.append l (sizeClass size) t.head t.pre).mem :=
    Rep.append_onlyLinks hnodes h₁.sound.linked
  have hlinks' : OnlyLinks (nodes (s.carved ++ new)) t.mem
      ((s.setMem t.mem).store.append l (sizeClass size) t.head t.pre).mem := by
    refine fun x hx => hlinks x fun a ha => hx a ?_
    obtain ⟨b, hb, rfl⟩ := ha
    exact ⟨b, List.mem_append_left _ hb, rfl⟩
  have hheaded : ∀ b ∈ s.carved ++ new, Headed c t.mem b := by
    intro b hb
    rcases List.mem_append.mp hb with hb | hb
    · exact h₁.headed b hb
    · exact hcarved.headed b hb
  have hresult : s.carveInto c l core size n p = some
      ⟨(s.setMem t.mem).store.append l (sizeClass size) t.head t.pre, s.mm, s.g, s.carved ++ new⟩ := by
    simp only [Process.carveInto, hrun, Option.map_some, hcarved.carved]
    rfl
  have hbodies : SameBodies s.carved s.store.mem t.mem := by
    intro b hb x hx hx'
    refine hold b hb x ⟨?_, ?_⟩
    · simp only [Block.extent, Block.body] at *
      omega
    · simp only [Block.extent, Block.body] at *
      omega
  refine ⟨_, hresult, rfl, rfl, rfl, ?_, hbodies.trans (h₁.sameBodies_links hlinks)⟩
  refine h.grown (h.append_carved hgranted hsizes hpos hcarved h₁) hN
    (fun b hb => hlinks'.headed hN ⟨b, hb, rfl⟩ (hheaded b hb))
    (fun b hb => blockOk_new hgranted hsizes (by omega) hcore hb) (h.apart_append hin hnew hgranted.apart) ?_
  intro b hb
  obtain ⟨j, -, rfl⟩ := mem_blocksFrom.mp hb
  exact ⟨hl, hsizes.body⟩

/-! ### Blocks coming back -/

/-- The lease flags and offsets are no part of the invariant. -/
theorem withG {g : GlobalMemoryManager} (h : HeapInv c s q) : HeapInv c { s with g } q :=
  ⟨h.arena, h.pages, h.sound, h.headed, h.blocks, h.apart, h.tags⟩

/-- `Free` routes a block by its header: to the free list of its core, in its class. -/
theorem free_moved (h : HeapInv c s q) (m : LocalMemoryManager) (hb : b ∈ s.carved)
    (hloose : ¬ Queued q b.addr) : Moved (nodes s.carved) s.store (m.free s.store b.body)
      (enqueue q (m.freeLists b.core, sizeClass b.size) [b.addr]) := by
  have hlt := (h.addr_lt hb).2
  have hpush := h.sound.push (l := m.freeLists b.core) (i := sizeClass b.size)
    (mem_nodes hb) fun k hk => hloose ⟨k, hk⟩
  have hstore : m.free s.store b.body =
      s.store.push (m.freeLists b.core) (sizeClass b.size) b.addr := by
    rw [LocalMemoryManager.free, if_neg (body_ne_zero b), freeList, h.ptrToCore hb, Block.body,
      Rep.free_body (by omega), (h.headed b hb).size]
  rw [hstore]
  exact hpush

/-- **`Free`** of a block on no queue puts it on the free list of its core and class. -/
theorem free (h : HeapInv c s q) (hj : j < managerN c) (hb : b ∈ s.carved)
    (hloose : ¬ Queued q b.addr) :
    HeapInv c { s with store := (managerPools c j).free s.store b.body }
      (enqueue q ((managerPools c j).freeLists b.core, sizeClass b.size) [b.addr]) := by
  refine h.relisted (h.free_moved _ hb hloose) fun k a ha => ?_
  rcases mem_enqueue.mp ha with hold | ⟨rfl, hadd⟩
  · exact h.tags k a hold
  · obtain rfl := List.mem_singleton.mp hadd
    exact ⟨b, hb, rfl, listCore_freeLists hj (h.blocks b hb).core_lt, h.sizeClass_size hb⟩

/-- The queues after the round for core `a` of `AllFreeToCommonMemoryPool`. -/
def flushQueues (m : LocalMemoryManager) (q : QueueId → List Nat) (a : Nat) : QueueId → List Nat :=
  if a ≠ m.core then Rep.joined q (.poolsPerCore a) (m.freeLists a) else q

/-- **The flush** of one core moves the manager's blocks of that core to its pool. -/
theorem flushCore (h : HeapInv c s q) (hj : j < managerN c) (ha : a < c.coreN) :
    HeapInv c { s with store := (managerPools c j).flushCore s.store a }
        (flushQueues (managerPools c j) q a) ∧
      ∀ x, Queued (flushQueues (managerPools c j) q a) x ↔ Queued q x := by
  unfold LocalMemoryManager.flushCore flushQueues
  split
  · have hmoved := h.sound.join (freeLists_ne_pool (n := a) hj ha).symm
    have hshuffle : Reshuffle (queueTag c) q
        (Rep.joined q (.poolsPerCore a) ((managerPools c j).freeLists a)) :=
      Rep.reshuffle_joined fun i => by
        rw [queueTag, queueTag, listCore_pool ha, listCore_freeLists hj ha]
    exact ⟨h.moved hmoved hshuffle.source, fun _ => hshuffle.queued_iff⟩
  · exact ⟨h, fun _ => Iff.rfl⟩

/-- **`FreeLocalMemoryManager`** hands blocks on to idle managers of their core. -/
theorem freeLocalMemoryManager (h : HeapInv c s q) (hj : j < managerN c) :
    let r := GlobalMemoryManager.freeLocalMemoryManager c s.g s.store j
    ∃ q', HeapInv c { s with g := r.1, store := r.2 } q' ∧ ∀ x, Queued q' x ↔ Queued q x := by
  rw [GlobalMemoryManager.freeLocalMemoryManager]
  dsimp only
  split
  · obtain ⟨q', hmoved, hback⟩ := handBack_moved hj h.sound
    exact ⟨q', (h.moved hmoved hback.reshuffle.source).withG,
      fun _ => hback.reshuffle.queued_iff⟩
  · exact ⟨q, h.withG, fun _ => Iff.rfl⟩

/-! ### The start -/

theorem init_head {base : Nat → Nat} {mem : Memory} :
    (Process.init c base mem).store.head = fun _ => 0 := by
  simp only [Process.init, initLists_eq]
  rfl

/-- **The state after `mainInit`**: no block carved, every queue empty. -/
theorem start {base : Nat → Nat} {mem : Memory} (hbase : c.FreshBase base) :
    HeapInv c (Process.init c base mem) (fun _ => []) := by
  obtain ⟨harrays, hoffsets, -⟩ := MmapManager.init_spec hbase
  constructor
  case arena => exact MmapManager.arenaInv_init hbase
  case pages =>
    intro a ha
    rw [Process.init, (harrays a ha).1, hoffsets a]
    exact ⟨(hbase a ha).2.2.1, Nat.dvd_zero _⟩
  case sound =>
    have hlast : (Process.init c base mem).store.last = fun _ => 0 := by
      simp only [Process.init, initLists_eq]
      rfl
    have hnone : ∀ a, a ∉ nodes (Process.init c base mem).carved := by
      rintro a ⟨b, hb, -⟩
      exact absurd hb List.not_mem_nil
    refine ⟨⟨by simp, ?_, fun a ha => absurd ha (hnone a)⟩, ⟨?_, ?_, ?_⟩, ?_⟩
    · rw [init_head, hlast]
      exact Linked.empty
    all_goals exact fun a ha => absurd ha (hnone a)
  all_goals simp [Process.init]

end HeapInv

end FCMalloc
