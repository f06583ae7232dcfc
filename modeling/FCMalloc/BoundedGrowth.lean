import FCMalloc.OwnershipRuns

/-!
# FCMalloc.BoundedGrowth

One thread on one manager never has more of a class carved than its peak use and one
batch.

The blocks such a thread carves and frees stay on the manager's `malloc_` and the
`free_` list of its own core; all other lists stay empty (`Solo`). `Malloc` looks at these
two, then at the empty pool, and carves only when all blocks of the class are in use
(`FrameSolo`), so right after carving only the rest of that batch is unused.
-/

namespace FCMalloc.Machine

open ByteMemory GlobalMemoryManager LocalMemoryManager

/-- The number of blocks of class `i` carved so far. -/
def carvedN (i : SizeClass) (s : Shared) : Nat := s.heap.carved.countP fun b => b.size = 2 ^ i.val

/-- The number of them that are live. -/
def liveN (i : SizeClass) (s : Shared) : Nat :=
  s.heap.carved.countP fun b => b.size = 2 ^ i.val ∧ b.body ∈ s.live

/-- Every block of class `i` is live. -/
def AllLive (s : Shared) (i : SizeClass) : Prop :=
  ∀ b ∈ s.heap.carved, b.size = 2 ^ i.val → b.body ∈ s.live

/-- The two lists `Malloc` of manager `lp` serves from. -/
def OwnList (c : Config) (lp : Option Nat) (l : ListId) : Prop :=
  ∃ j, lp = some j ∧
    (l = (managerPools c j).mallocList ∨ l = (managerPools c j).freeLists (managerPools c j).core)

/-- All blocks were carved by manager `lp`, and no list but its own two holds any. -/
structure Solo (c : Config) (lp : Option Nat) (s : Process) : Prop where
  quiet : ∀ l, ¬ OwnList c lp l → ∀ i, s.store.head (l, i) = 0
  home : ∀ b ∈ s.carved, ∃ j, lp = some j ∧ b.core = (managerPools c j).core

/-- A `Malloc` past its own lists has seen every block of its class in use. -/
def FrameSolo (lp : Option Nat) (s : Shared) : Frame → Prop
  | .pool r | .allocate r | .printing r _ => AllLive s (sizeClass r.size)
  | .flush j _ => lp = some j
  | .freeing _ _ | .release _ => False

/-- **What a step of the only thread establishes** beside `Advance`. -/
structure Tended (c : Config) (s s' : Shared) (rest : List Frame) (th' : Thread)
    (arena : Option Nat) : Prop where
  solo : Solo c th'.lp s'.heap
  carved : arena = none → s'.heap.carved = s.heap.carved
  counts : ∀ i, 0 < c.batch i →
    carvedN i s' = carvedN i s ∨ carvedN i s' + 1 ≤ liveN i s' + c.batch i
  stack : th'.stack = rest ∨ ∃ f, th'.stack = f :: rest ∧ FrameSolo th'.lp s' f

section Solo

variable {c : Config} {s s' : Process} {sh : Shared} {q : QueueId → List Nat} {b : Block}
  {lp : Option Nat} {j size : Nat} {i : SizeClass} {l : ListId} {mem : Memory}

/-- A change that assigns caches of own lists only. -/
theorem Solo.of_lists (h : Solo c lp s)
    (hlists : ∀ l, ¬ OwnList c lp l → s'.store.lists l = s.store.lists l)
    (hcarved : s'.carved = s.carved) : Solo c lp s' where
  quiet l hl i := by
    rw [Store.head, hlists l hl]
    exact h.quiet l hl i
  home b hb := h.home b (hcarved ▸ hb)

theorem not_ownList (h : ¬ OwnList c (some j) l) : l ≠ (managerPools c j).mallocList ∧
    l ≠ (managerPools c j).freeLists (managerPools c j).core :=
  ⟨fun heq => h ⟨j, rfl, Or.inl heq⟩, fun heq => h ⟨j, rfl, Or.inr heq⟩⟩

/-- No pool is an own list. -/
theorem pool_not_own {k : Nat} (hj : j < managerN c) : ¬ OwnList c (some j) (.poolsPerCore k) := by
  rintro ⟨j', hj', hl⟩
  obtain rfl := Option.some.inj hj'
  rcases hl with heq | heq
  · exact mallocList_ne_pool heq.symm
  · exact freeLists_ne_pool hj (core_lt hj) heq.symm

/-- Freed blocks come home. -/
theorem Solo.free (h : Solo c (some j) s) (hheap : HeapInv c s q) (hb : b ∈ s.carved) :
    Solo c (some j) { s with store := (managerPools c j).free s.store b.body } := by
  refine h.of_lists (fun l hl => ?_) rfl
  obtain ⟨j', hj', hcore⟩ := h.home b hb
  obtain rfl := Option.some.inj hj'
  have hne : l ≠ (managerPools c j).freeList s.store b.body := by
    rw [freeList, hheap.ptrToCore hb, hcore]
    exact (not_ownList hl).2
  rw [LocalMemoryManager.free, if_neg (HeapInv.body_ne_zero b)]
  exact Store.free_lists_of_ne hne

/-- **The own lists have no block of the class**: then no list has. -/
theorem Solo.own_null (h : Solo c (some j) s) (hheap : HeapInv c s q) (hj : j < managerN c)
    (hnull : ((managerPools c j).mallocOwn s.store size).1 = 0) : q (l, sizeClass size) = [] := by
  have hcore : (managerPools c j).core < c.coreN := core_lt hj
  have hne := mallocList_ne_freeLists hj hj hcore
  have hfront := (hheap.mallocOwn hj size).1
  rw [hnull] at hfront
  have hown := frontBody_eq_zero.mp hfront.symm
  have hmalloc : q ((managerPools c j).mallocList, sizeClass size) = [] := by
    by_contra hq
    rw [ownQueues, if_neg hq] at hown
    exact hq hown
  rw [ownQueues, if_pos hmalloc, swapped, Function.update_of_ne (by simp [hne]),
    Function.update_self] at hown
  by_cases hl : OwnList c (some j) l
  · obtain ⟨j', hj', hl⟩ := hl
    obtain rfl := Option.some.inj hj'
    rcases hl with rfl | rfl
    · exact hmalloc
    · exact hown
  · exact hheap.sound.linked.head_eq_null_iff.mp (h.quiet l hl _)

/-- Blocks of a class on no list are live. -/
theorem Owned.allLive (h : Owned c sh q) (hempty : ∀ l, q (l, i) = []) : AllLive sh i := by
  intro b hb hsize
  by_contra hdead
  obtain ⟨k, hk⟩ := not_not.mp (mt (h.live_iff b hb).mpr hdead)
  obtain ⟨b', hb', haddr, -, hsize'⟩ := h.heap.tags k _ hk
  obtain rfl := h.heap.addr_inj hb' hb haddr
  have hclass : k.2 = i := sizeClass_unique hsize' hsize
  have hnil := hempty k.1
  rw [← hclass] at hnil
  rw [show q k = [] from hnil] at hk
  exact List.not_mem_nil hk

end Solo

/-! ### Malloc -/

section Malloc

variable {c : Config} {main : Bool} {s s' : Shared} {th th' : Thread} {q : QueueId → List Nat}
  {r : Request} {p ptr ret : Nat} {heap : Process} {arena : Option Nat} {i : SizeClass}

/-- A step that carves nothing keeps the counts. -/
theorem Tended.uncarved {rest : List Frame} (hsolo : Solo c th'.lp s'.heap)
    (hcarved : s'.heap.carved = s.heap.carved)
    (hstack : th'.stack = rest ∨ ∃ f, th'.stack = f :: rest ∧ FrameSolo th'.lp s' f) :
    Tended c s s' rest th' arena :=
  ⟨hsolo, fun _ => hcarved, fun _ _ => Or.inl (by rw [carvedN, carvedN, hcarved]), hstack⟩

/-- What `Malloc` returns is live from then on. -/
theorem finish_live (hptr : ptr ≠ 0) : ptr ∈ (s.finish c r ptr).live := by
  unfold Shared.finish
  dsimp only
  rw [if_neg hptr]
  split <;> exact List.mem_cons_self

theorem Popped.finish_solo (h : Popped c s q r ptr) (hr : RequestOk c s r)
    (hsolo : Solo c (some r.manager) s.heap) :
    Solo c (some r.manager) (s.finish c r ptr).heap := by
  obtain ⟨-, heq⟩ | ⟨-, mem, hgiven, hcases⟩ := h.finish_cases hr.size_lt hr.grows
  · rw [heq]
    exact hsolo
  · have hfilled : Solo c (some r.manager) (s.given c r ptr mem).heap :=
      hsolo.of_lists (fun _ _ => rfl) rfl
    obtain heq | ⟨b, hb, -, -, heq⟩ := hcases
    · rw [heq]
      exact hfilled
    · rw [heq]
      exact hfilled.free hgiven.heap hb

/-- **The manager's own lists.** -/
theorem enterMalloc_tended (h : Owned c s q) (hr : RequestOk c s r)
    (hlp : th.lp = some r.manager) (hsolo : Solo c th.lp s.heap)
    (hstep : enterMalloc c s th r = .next s' th') : Tended c s s' th.stack th' none := by
  rw [hlp] at hsolo
  have hown : Solo c (some r.manager)
      (s.setStore ((r.lm c).mallocOwn s.heap.store r.size).2).heap :=
    hsolo.of_lists (fun l hl => mallocOwn_lists (not_ownList hl).1 (not_ownList hl).2) rfl
  obtain ⟨hzero, -⟩ | ⟨-, -, rfl, rfl⟩ | ⟨-, hnull, rfl, rfl⟩ := enterMalloc_next hstep
  · exact absurd hzero hr.size_ne
  · obtain ⟨hptr, hheap⟩ := h.heap.mallocOwn hr.manager r.size
    have hpop := h.pop hr.manager (h.heap.dealt_own hr.manager) hheap rfl hptr
    refine .uncarved ?_ finish_carved (Or.inl rfl)
    rw [hlp]
    exact hpop.finish_solo (hr.reheap rfl) hown
  · refine .uncarved ?_ rfl (Or.inr ⟨_, rfl, ?_⟩)
    · rwa [← hlp] at hown
    · exact h.allLive fun l => hsolo.own_null h.heap hr.manager hnull

/-- **The common pool**, which is empty. -/
theorem pool_tended (h : Owned c s q) (hr : RequestOk c s r) (hlp : th.lp = some r.manager)
    (hsolo : Solo c th.lp s.heap) (hall : AllLive s (sizeClass r.size))
    (hstep : resume c main s th ret (.pool r) = .next s' th') :
    Tended c s s' th.stack th' none := by
  rw [hlp] at hsolo
  have hpooled : Solo c (some r.manager) (s.setStore (CommonMemoryPool.malloc c s.heap.store
      (r.lm c).mallocList (r.lm c).core r.size).2).heap :=
    hsolo.of_lists (fun l hl => CommonMemoryPool.malloc_lists
      (hsolo.quiet _ (pool_not_own hr.manager) _) (not_ownList hl).1) rfl
  obtain ⟨-, rfl, rfl⟩ | ⟨-, rfl, rfl⟩ := resume_pool hstep
  · obtain ⟨hptr, hheap⟩ := h.heap.mallocPool hr.manager hr.size_ne
    have hpop := h.pop hr.manager (h.heap.dealt_pool hr.manager) hheap rfl hptr
    refine .uncarved ?_ finish_carved (Or.inl rfl)
    rw [hlp]
    exact hpop.finish_solo (hr.reheap rfl) hpooled
  · refine .uncarved ?_ rfl (Or.inr ⟨_, rfl, hall⟩)
    rwa [← hlp] at hpooled

/-- **Carving when all are live** leaves all but one of the batch unused. -/
theorem Carves.counts {new : List Block} (hc : Setting c) (h : Owned c s q) (hr : RequestOk c s r)
    (hcarves : Carves c s q r p heap ptr new) (hall : AllLive s (sizeClass r.size))
    (hkept : Kept s (({ s with heap } : Shared).finish c r ptr) r.caller.old arena)
    (hi : 0 < c.batch i) :
    let s' := ({ s with heap } : Shared).finish c r ptr
    carvedN i s' = carvedN i s ∨ carvedN i s' + 1 ≤ liveN i s' + c.batch i := by
  intro s'
  have hcarved : s'.heap.carved = s.heap.carved ++ new := finish_carved.trans hcarves.carved
  have hlength : new.length = c.batch (sizeClass r.size) := by
    rw [hcarves.new_eq, blocksFrom, List.length_map, List.length_range, Request.n]
  have hsizes : ∀ b ∈ new, b.size = 2 ^ (sizeClass r.size).val := by
    intro b hb
    have hn : 0 < c.batch (sizeClass r.size) := by
      rw [← hlength]
      exact List.length_pos_of_mem hb
    rw [hcarves.new_eq] at hb
    obtain ⟨k, -, rfl⟩ := mem_blocksFrom.mp hb
    exact (hc.fits.batchSizes (Nat.pos_of_ne_zero hr.size_ne) hn).body
  by_cases hclass : i = sizeClass r.size
  case neg =>
    -- the new blocks are of another class
    refine Or.inl ?_
    have hnone : (new.countP fun b => b.size = 2 ^ i.val) = 0 := by
      refine List.countP_eq_zero.mpr fun b hb hsize => hclass ?_
      exact sizeClass_unique (of_decide_eq_true hsize) (hsizes b hb)
    rw [carvedN, carvedN, hcarved, List.countP_append, hnone, Nat.add_zero]
  subst hclass
  refine Or.inr ?_
  have hfit : r.size ≤ 2 ^ (sizeClass r.size).val := le_two_pow_logarithm2 hr.size_lt
  have hptr : ptr ≠ 0 := by
    rw [hcarves.front, Ne, frontBody_eq_zero, List.append_eq_nil_iff, List.map_eq_nil_iff]
    rintro ⟨-, rfl⟩
    exact absurd hlength (by simp only [List.length_nil]; omega)
  -- the blocks there were stay live, the one returned becomes live
  have hstill : ∀ b ∈ s.heap.carved, b.size = 2 ^ (sizeClass r.size).val → b.body ∈ s'.live := by
    intro b hb hsize
    -- a block that `realloc` gives up is too small to be of this class
    refine hkept.live _ (hall b hb hsize) fun hold => ?_
    cases hcaller : r.caller with
    | realloc old preSize =>
        obtain ⟨-, hless, b', hb', hbody, hsize'⟩ := hr.grows old preSize hcaller
        rw [hcaller, Caller.old, Option.some.injEq] at hold
        obtain rfl := h.heap.body_inj hb' hb (hbody.trans hold)
        omega
    | malloc | calloc => exact absurd hold (by simp [hcaller, Caller.old])
  have hgiven : ∃ b ∈ new, b.body ∈ s'.live := by
    obtain ⟨q', hpop⟩ := hcarves.popped
    have hlive : ptr ∈ s'.live := finish_live hptr
    cases hpop with
    | null => exact absurd rfl hptr
    | @block b hb _ hsize _ _ hdead =>
        rw [hcarves.carved] at hb
        rcases List.mem_append.mp hb with hb | hb
        · exact absurd (hall b hb hsize) hdead
        · exact ⟨b, hb, hlive⟩
  have hold : s.heap.carved.countP (fun b => b.size = 2 ^ (sizeClass r.size).val) =
      s.heap.carved.countP fun b => b.size = 2 ^ (sizeClass r.size).val ∧ b.body ∈ s'.live :=
    List.countP_congr fun b hb => by
      simp only [decide_eq_true_eq]
      exact ⟨fun hsize => ⟨hsize, hstill b hb hsize⟩, And.left⟩
  have hnew : 0 < new.countP fun b => b.size = 2 ^ (sizeClass r.size).val ∧ b.body ∈ s'.live := by
    obtain ⟨b, hb, hlive⟩ := hgiven
    exact List.countP_pos_iff.mpr ⟨b, hb, decide_eq_true ⟨hsizes b hb, hlive⟩⟩
  have hall' : (new.countP fun b => b.size = 2 ^ (sizeClass r.size).val) ≤ new.length :=
    List.countP_le_length
  rw [carvedN, liveN, hcarved, List.countP_append, List.countP_append, hold]
  omega

/-- **A granted range.** -/
theorem serve_tended (hc : Setting c) (h : Owned c s q) (hr : RequestOk c s r)
    (hgranted : Granted s.heap c p (r.mmapSize c)) (hlp : th.lp = some r.manager)
    (hsolo : Solo c th.lp s.heap) (hall : AllLive s (sizeClass r.size))
    (hstep : serve c s th r p = .next s' th') :
    Tended c s s' th.stack th' (some (r.arena c main)) := by
  have hkept := (serve_owned none hc h hr hgranted hstep).2.1
  obtain ⟨rfl, heap, ptr, new, hcarves, rfl⟩ := serve_carves hc h hr hgranted hstep
  obtain ⟨q', hpop⟩ := hcarves.popped
  rw [hlp] at hsolo
  have hgrown : Solo c (some r.manager) heap := by
    constructor
    case quiet =>
      intro l hl i
      rw [Store.head, hcarves.lists l (not_ownList hl).1]
      exact hsolo.quiet l hl i
    case home =>
      intro b hb
      rw [hcarves.carved] at hb
      rcases List.mem_append.mp hb with hb | hb
      · exact hsolo.home b hb
      · rw [hcarves.new_eq] at hb
        obtain ⟨k, -, rfl⟩ := mem_blocksFrom.mp hb
        exact ⟨_, rfl, rfl⟩
  have hkept' : Kept s { s with heap } none none :=
    ⟨⟨new, hcarves.carved.symm⟩, fun _ hp _ => hp, fun a _ => by simp only [hcarves.mm, and_self]⟩
  have hr' := hr.mono hkept' fun p _ => by simp
  refine ⟨?_, fun hnone => absurd hnone (by simp), fun i hi => ?_, Or.inl rfl⟩
  · rw [hlp]
    exact hpop.finish_solo hr' hgrown
  · exact hcarves.counts hc h hr hall hkept hi

/-- **The arena.** -/
theorem allocate_tended (hc : Setting c) (h : Owned c s q) (hr : RequestOk c s r)
    (hfresh : s.heap.mm.needsExtension c (r.arena c main) (r.mmapSize c) = true →
      c.Fresh s.heap.mm.maps ret (align (MmapManager.allocSize (r.mmapSize c)) c.pageSize))
    (hlp : th.lp = some r.manager) (hsolo : Solo c th.lp s.heap)
    (hall : AllLive s (sizeClass r.size))
    (hstep : resume c main s th ret (.allocate r) = .next s' th') :
    Tended c s s' th.stack th' (some (r.arena c main)) := by
  obtain ⟨mm, touched, hown, -, hcases⟩ := allocate_granted hc h hr hfresh hstep
  have htouched : Solo c th.lp (s.heap.touch mm touched) := hsolo.of_lists (fun _ _ => rfl) rfl
  obtain ⟨p, hgranted, hserve⟩ | ⟨rfl, rfl, -⟩ := hcases
  · have htended : Tended c _ s' th.stack th' (some (r.arena c main)) :=
      serve_tended hc hown (hr.reheap rfl) hgranted hlp htouched hall hserve
    exact ⟨htended.solo, htended.carved, htended.counts, htended.stack⟩
  · exact .uncarved htouched rfl (Or.inr ⟨_, rfl, hall⟩)

/-- **After the report.** -/
theorem reported_tended (hc : Setting c) (h : Owned c s q) (hr : RequestOk c s r)
    (hroom : Room c main s r) (hlp : th.lp = some r.manager) (hsolo : Solo c th.lp s.heap)
    (hall : AllLive s (sizeClass r.size))
    (hstep : resume c main s th ret (.printing r .reported) = .next s' th') :
    Tended c s s' th.stack th' (some (r.arena c main)) := by
  obtain ⟨p, mm, hown, -, hgranted, hserve⟩ := reported_granted h hr hroom hstep
  have hmoved : Solo c th.lp (s.setMm mm).heap := hsolo.of_lists (fun _ _ => rfl) rfl
  have htended : Tended c _ s' th.stack th' (some (r.arena c main)) :=
    serve_tended hc hown (hr.reheap rfl) hgranted hlp hmoved hall hserve
  exact ⟨htended.solo, htended.carved, htended.counts, htended.stack⟩

end Malloc

/-! ### All functions -/

section Functions

variable {c : Config} {main : Bool} {s s' : Shared} {th th' : Thread} {q : QueueId → List Nat}
  {f : Frame} {a : Action} {j size ptr ret : Nat} {lp : Option Nat} {rest : List Frame}

/-- A flush finds the lists for other cores empty. -/
theorem Solo.flushCore {i : Nat} (h : Solo c (some j) s.heap) (hj : j < managerN c)
    (hi : i < c.coreN) : (managerPools c j).flushCore s.heap.store i = s.heap.store := by
  unfold LocalMemoryManager.flushCore
  split
  case isTrue hne =>
    refine Store.join_of_null (h.quiet _ ?_)
    have hcore : (managerPools c j).core < c.coreN := core_lt hj
    rintro ⟨j', hj', hl⟩
    obtain rfl := Option.some.inj hj'
    rcases hl with heq | heq
    · exact mallocList_ne_freeLists hj hj hi heq.symm
    · exact hne (freeLists_inj hj hj hi hcore heq).2
  case isFalse => rfl

theorem resume_tended (th : Thread) (hc : Setting c) (h : Owned c s q) (hf : FrameOk c main s f)
    (hfresh : ∀ r, f = .allocate r →
      s.heap.mm.needsExtension c (r.arena c main) (r.mmapSize c) = true →
      c.Fresh s.heap.mm.maps ret (align (MmapManager.allocSize (r.mmapSize c)) c.pageSize))
    (hrequest : ∀ r, f.request = some r → th.lp = some r.manager)
    (hsolo : Solo c th.lp s.heap) (hframe : FrameSolo th.lp s f)
    (hstep : resume c main s th ret f = .next s' th') :
    Tended c s s' th.stack th' (f.arena c main) := by
  cases f with
  | pool r => exact pool_tended h hf (hrequest r rfl) hsolo hframe hstep
  | allocate r => exact allocate_tended hc h hf (hfresh r rfl) (hrequest r rfl) hsolo hframe hstep
  | printing r phase =>
      obtain ⟨hr, hroom, hphase⟩ := hf
      cases phase with
      | extended | reporting =>
          obtain ⟨rfl, rfl⟩ := Result.next.inj hstep
          exact .uncarved hsolo rfl (Or.inr ⟨_, rfl, hframe⟩)
      | reported => exact reported_tended hc h hr hroom (hrequest r rfl) hsolo hframe hstep
      | exhausted => exact absurd rfl hphase
  | freeing j ptr | release j => exact absurd hframe id
  | flush j i =>
      obtain ⟨hj, hi⟩ := hf
      obtain ⟨rfl, rfl⟩ := Result.next.inj hstep
      rw [show th.lp = some j from hframe] at hsolo
      have hflushed : Solo c th.lp
          (s.setStore ((managerPools c j).flushCore s.heap.store i)).heap := by
        rw [show th.lp = some j from hframe, Shared.setStore, hsolo.flushCore hj hi]
        exact hsolo
      split
      case isTrue => exact .uncarved hflushed rfl (Or.inr ⟨_, rfl, hframe⟩)
      case isFalse => exact .uncarved hflushed rfl (Or.inl rfl)

theorem malloc_tended (h : Owned c s q) (hlease : ∀ j, th.lp = some j → j < managerN c)
    {caller : Caller} (hcaller : caller.old = none) (hsize : size < 2 ^ 64)
    (hsolo : Solo c th.lp s.heap) (hstep : malloc c s th size caller = .next s' th') :
    Tended c s s' th.stack th' none := by
  obtain ⟨-, rfl, rfl⟩ | ⟨j, hne, hlp, henter⟩ := malloc_next hstep
  · exact .uncarved hsolo rfl (Or.inl rfl)
  · have hgrow : Growing s ⟨j, size, caller⟩ := by
      intro ptr preSize heq
      obtain rfl : caller = _ := heq
      exact absurd hcaller (by simp [Caller.old])
    exact enterMalloc_tended h ⟨hlease j hlp, hne, hsize, hgrow⟩ hlp hsolo henter

/-- **Every action** of the only thread but its exit. -/
theorem act_tended (hc : Setting c) (h : Owned c s q)
    (hlease : ∀ j, th.lp = some j → j < managerN c)
    (hframes : ∀ f ∈ th.stack, FrameOk c main s f ∧ FrameSolo th.lp s f ∧
      ∀ r, f.request = some r → th.lp = some r.manager)
    (hsolo : Solo c th.lp s.heap) (hstart : ∀ core, a = .start core → th.lp = none)
    (hexit : a ≠ .exit) (hok : ActOk c main s th a)
    (hstep : act c main s th a = .next s' th') :
    Tended c s s' (a.below th) th' (a.arena c main th) := by
  cases a with
  | start core =>
      obtain ⟨rfl, rfl⟩ := Result.next.inj hstep
      rw [hstart core rfl] at hsolo
      refine .uncarved ⟨fun l _ i => hsolo.quiet l ?_ i, fun b hb => ?_⟩ rfl (Or.inl rfl)
      · rintro ⟨j, hj, -⟩
        exact absurd hj (by simp)
      · obtain ⟨j, hj, -⟩ := hsolo.home b hb
        exact absurd hj (by simp)
  | exit => exact absurd rfl hexit
  | malloc size => exact malloc_tended h hlease rfl hok hsolo hstep
  | calloc nmemb size =>
      obtain ⟨rfl, rfl⟩ | ⟨j, hne, hlp, henter⟩ := calloc_next hstep
      · exact .uncarved hsolo rfl (Or.inl rfl)
      · exact enterMalloc_tended h ⟨hlease j hlp, hne, u64_lt _, fun _ _ heq => by simp at heq⟩
          hlp hsolo henter
  | realloc ptr size =>
      obtain ⟨-, hmalloc⟩ | ⟨-, -, rfl, rfl⟩ | ⟨j, hne, hlt, hlp, henter⟩ := realloc_next hstep
      · exact malloc_tended h hlease rfl hok.1 hsolo hmalloc
      · exact .uncarved hsolo rfl (Or.inl rfl)
      · exact enterMalloc_tended h (h.requestOk_realloc (hlease j hlp) hok.1 (hok.2 hne) hlt) hlp
          hsolo henter
  | free ptr =>
      obtain ⟨-, rfl, rfl⟩ | ⟨hne, hlp, -⟩ | ⟨j, hne, hlp, rfl, hth⟩ := free_next hstep
      · exact .uncarved hsolo rfl (Or.inl rfl)
      · -- without a manager the thread has no block to free
        obtain ⟨b, hb, -⟩ := h.live_carved ptr (hok hne)
        obtain ⟨j, hj, -⟩ := hsolo.home b hb
        exact absurd (hlp.symm.trans hj) (by simp)
      · obtain ⟨b, hb, rfl⟩ := h.live_carved ptr (hok hne)
        rw [hlp] at hsolo
        have hfreed := hsolo.free h.heap hb
        obtain ⟨cnts, hcount | hcount⟩ := countFree_cases c main _ th j b.body
        · rw [hth, hcount]
          exact .uncarved (by rwa [← hlp] at hfreed) rfl (Or.inl rfl)
        · rw [hth, hcount]
          exact .uncarved (by rwa [← hlp] at hfreed) rfl (Or.inr ⟨_, rfl, hlp⟩)
  | allFree =>
      obtain ⟨j, hlp, rfl, rfl⟩ := allFree_next hstep
      exact .uncarved hsolo rfl (Or.inr ⟨_, rfl, hlp⟩)
  | store addr v =>
      obtain ⟨rfl, rfl⟩ := Result.next.inj hstep
      exact .uncarved (hsolo.of_lists (fun _ _ => rfl) rfl) rfl (Or.inl rfl)
  | resume ret =>
      rw [act] at hstep
      split at hstep
      · exact absurd hstep (by simp)
      case h_2 f rest hstack =>
        obtain ⟨hframe, hwaits, hrequest⟩ := hframes f (by simp [hstack])
        have htended := resume_tended { th with stack := rest } hc h hframe
          (fun r heq => hok r (by simp [hstack, heq])) hrequest hsolo hwaits hstep
        simpa only [Action.below, Action.arena, hstack, List.head?_cons, List.tail_cons,
          Option.bind_some] using htended

end Functions

/-! ### Runs -/

/-- **The invariant of a thread alone.** -/
structure SoloInv (c : Config) (t : Nat) (w : World) : Prop where
  inv : OwnershipInv c w
  fresh : (w.threads t).started = false → (w.threads t).lp = none
  solo : Solo c (w.threads t).lp w.shared.heap
  frames : ∀ f ∈ (w.threads t).stack, FrameSolo (w.threads t).lp w.shared f
  nested : ∀ f g rest, (w.threads t).stack = f :: g :: rest → f.pending = none

section Runs

variable {c : Config} {base : Nat → Nat} {w w' : World} {t : Nat} {a : Action} {s s' : Shared}
  {th : Thread} {f : Frame} {lp : Option Nat} {i : SizeClass} {p : Nat}

theorem FrameSolo.mono (h : FrameSolo lp s f) (hcarved : s'.heap.carved = s.heap.carved)
    (hlive : ∀ p ∈ s.live, p ∈ s'.live) : FrameSolo lp s' f := by
  cases f with
  | pool r | allocate r | printing r phase =>
      exact fun b hb hsize => hlive _ (h b (hcarved ▸ hb) hsize)
  | freeing | release => exact absurd h id
  | flush j i => exact h

/-- Above a report under way nothing is freed and nothing carved. -/
theorem SoloInv.nested_quiet (h : SoloInv c t w) (hready : (w.threads t).ready a = true)
    (hfree : ∀ m, locks c (mainThread t) w.shared (w.threads t) a = some m → w.owner m = none)
    (hf : f ∈ a.below (w.threads t)) :
    a.given (w.threads t) = none ∧ a.arena c (mainThread t) (w.threads t) = none := by
  have hidle : (w.threads t).stack ≠ [] := by
    intro hnil
    cases a <;> simp [Action.below, hnil] at hf
  cases a with
  | malloc size => exact ⟨rfl, rfl⟩
  | resume ret =>
      have hshape := h.inv.locking.shape t
      cases hstack : (w.threads t).stack with
      | nil => exact absurd hstack hidle
      | cons g rest =>
          rw [hstack] at hshape
          simp only [Action.below, hstack, List.tail_cons] at hf
          cases rest with
          | nil => exact absurd hf List.not_mem_nil
          | cons g' rest =>
              have hgiven : g.pending = none := h.nested g g' rest hstack
              simp only [Action.given, Action.arena, hstack, List.head?_cons, Option.bind_some, hgiven,
                true_and]
              have hnested : rest = [] ∧ (∃ r phase, g' = .printing r phase) ∧
                  ((∃ r, g = .pool r) ∨ ∃ r, g = .allocate r) := by
                cases rest <;> cases g <;> cases g' <;> simp [Shape] at hshape ⊢
              obtain ⟨rfl, ⟨r', phase, rfl⟩, ⟨r, rfl⟩ | ⟨r, rfl⟩⟩ := hnested
              · rfl
              · have htaken := h.inv.locking.arena_taken hstack
                have havail := hfree (.mtxs (r.arena c (mainThread t))) (by
                  simp only [locks, hstack, Frame.locks])
                rw [htaken] at havail
                exact absurd havail (by simp)
  | start | exit | calloc | realloc | free | allFree | store =>
      simp only [Thread.ready, Bool.and_eq_true, decide_eq_true_eq] at hready
      exact absurd hready.2 hidle

/-- What a report calls waits for no pointer to be freed. -/
theorem SoloInv.nested_next {g : Frame} {rest : List Frame} (h : SoloInv c t w)
    (hready : (w.threads t).ready a = true)
    (hfree : ∀ m, locks c (mainThread t) w.shared (w.threads t) a = some m → w.owner m = none)
    (hadvance : Advance c (mainThread t) w.shared s (a.below (w.threads t)) th
      (a.given (w.threads t)) (a.arena c (mainThread t) (w.threads t)))
    (hstack : th.stack = f :: g :: rest) : f.pending = none := by
  obtain hbelow | ⟨f', hpushed, -, hgives⟩ := hadvance.stack
  · rw [hbelow] at hstack
    have hshape := h.inv.locking.shape t
    cases a with
    | resume ret =>
        -- three frames deep: no shape allows it
        obtain ⟨x, hx⟩ : ∃ x, (w.threads t).stack = x :: f :: g :: rest := by
          cases hold : (w.threads t).stack with
          | nil => simp [Action.below, hold] at hstack
          | cons x tail => exact ⟨x, by simpa [Action.below, hold] using hstack⟩
        rw [hx] at hshape
        exact absurd hshape (by simp [Shape])
    | start | exit | malloc | calloc | realloc | free | allFree | store =>
        exact h.nested f g rest hstack
  · obtain ⟨rfl, hbelow⟩ := List.cons.inj (hpushed.symm.trans hstack)
    have hquiet := (h.nested_quiet (f := g) hready hfree (by simp [hbelow])).1
    cases hp : f'.pending with
    | none => rfl
    | some p => exact absurd (hgives p hp) (by simp [hquiet])

theorem SoloInv.start (hbase : c.FreshBase base) (mem : Memory) :
    SoloInv c t (World.init c base mem) where
  inv := OwnershipInv.start hbase mem
  fresh _ := rfl
  solo := by
    refine ⟨fun l _ i => ?_, fun b hb => absurd hb List.not_mem_nil⟩
    simp only [Store.head, World.init, Process.init, initLists_eq]
    rfl
  frames _ hf := absurd hf List.not_mem_nil
  nested _ _ _ hstack := absurd hstack (by simp [World.init, Thread.blank])

/-- **Every step of the thread**: the invariant is kept, and where blocks of a class are
carved, all but the rest of the batch are live. -/
theorem SoloInv.step (hc : Setting c) (h : SoloInv c t w) (hlegal : Legal c w (t, a))
    (hexit : a ≠ .exit) (hstep : w.step c t a = .next w') :
    SoloInv c t w' ∧ ∀ i, 0 < c.batch i → carvedN i w'.shared = carvedN i w.shared ∨
      carvedN i w'.shared + 1 ≤ liveN i w'.shared + c.batch i := by
  have hinv' := (h.inv.step hc hlegal hstep).1
  obtain ⟨hready, hfree, s, th, hact, rfl⟩ := World.step_next hstep
  obtain ⟨q, hq⟩ := h.inv.owned
  have hstarts : ∀ core, a = .start core → (w.threads t).lp = none := by
    rintro core rfl
    simp only [Thread.ready, Bool.and_eq_true, Bool.not_eq_true'] at hready
    exact h.fresh hready.1
  have hadvance := act_advance hc hq (h.inv.leases t) h.inv.offset (h.inv.frames t) hlegal.act hact
  have htended := act_tended hc hq (h.inv.leases t) (fun f hf => ⟨h.inv.frames t f hf,
    h.frames f hf, fun r hr => (h.inv.locking.requests t f hf r hr).1⟩) h.solo hstarts hexit
    hlegal.act hact
  have hself : ((w.commit c t s th).threads t) = th := by
    rw [World.commit_threads, Function.update_self]
  have hlease : (w.threads t).KeepsLease th ∨
      ((∃ core, a = .start core) ∧ (w.threads t).stack = []) := by
    obtain hk | ⟨hstart | rfl, hidle, -⟩ := act_lease_cases hready hact
    · exact Or.inl hk
    · exact Or.inr ⟨hstart, hidle⟩
    · exact absurd rfl hexit
  refine ⟨⟨hinv', ?fresh, ?solo, ?frames, ?nested⟩, htended.counts⟩ <;> rw [hself]
  case fresh =>
    obtain hk | ⟨⟨core, rfl⟩, -⟩ := hlease
    · rw [hk.started, hk.lp]
      exact h.fresh
    · obtain ⟨-, rfl⟩ := Result.next.inj hact
      exact fun hstarted => absurd hstarted (by simp)
  case solo => exact htended.solo
  case frames =>
    have hold : ∀ f ∈ a.below (w.threads t), FrameSolo th.lp s f := by
      intro f hf
      have hmem := (a.below_sublist _).subset hf
      obtain ⟨hgiven, harena⟩ := h.nested_quiet hready hfree hf
      have hlp : th.lp = (w.threads t).lp := by
        obtain hk | ⟨-, hidle⟩ := hlease
        · exact hk.lp
        · exact absurd (hidle ▸ hmem) List.not_mem_nil
      rw [hlp]
      exact (h.frames f hmem).mono (htended.carved harena) fun p hp =>
        hadvance.kept.live p hp (by simp [hgiven])
    intro f hf
    obtain hstack | ⟨g, hstack, hg⟩ := htended.stack
    · exact hold f (hstack ▸ hf)
    · rw [hstack] at hf
      rcases List.mem_cons.mp hf with rfl | hf
      · exact hg
      · exact hold f hf
  case nested => exact fun f g rest hstack => h.nested_next hready hfree hadvance hstack

/-- **Bounded growth.** While thread `t` is alone, as soon as blocks of a class with a batch
have been carved, their number stays below the peak number of live ones plus one batch. -/
theorem bounded_growth (c : Config) (base : Nat → Nat) (t : Nat) (i : SizeClass) (w : World)
    (p : Nat) (hc : Setting c) (hbase : c.FreshBase base) (hn : 1 ≤ c.nPerSize i)
    (hrun : (system c base).PeakRun (Alone c t) (fun w => liveN i w.shared) w p)
    (hany : 0 < carvedN i w.shared) :
    (carvedN i w.shared : Int) ≤ p + c.nPerSize i - 1 := by
  obtain ⟨hbatch, -⟩ := hc.fits.batch_eq i
  have hboth : SoloInv c t w ∧
      (0 < carvedN i w.shared → carvedN i w.shared + 1 ≤ p + c.batch i) := by
    refine hrun.invariant (motive := fun w p => SoloInv c t w ∧
      (0 < carvedN i w.shared → carvedN i w.shared + 1 ≤ p + c.batch i)) ?_ ?_
    · rintro _ ⟨mem, rfl⟩
      exact ⟨SoloInv.start hbase mem, fun hpos => absurd hpos (by
        simp [carvedN, World.init, Process.init])⟩
    · rintro w ⟨t', a⟩ w' p ⟨hinv, hbound⟩ ⟨hlegal, rfl, hexit⟩ hstep
      obtain ⟨hinv', hcounts⟩ := hinv.step hc hlegal hexit hstep
      refine ⟨hinv', fun hpos => ?_⟩
      rcases hcounts i (by omega) with hsame | hcarved
      · rw [hsame] at hpos ⊢
        have := hbound hpos
        omega
      · omega
  have := hboth.2 hany
  omega

/-- After `carveRun` two blocks of class 16 are carved, as many as the bound allows. -/
theorem bounded_growth_carveRun : ∃ (w : World) (p : Nat), carvedN 16 w.shared = 2 ∧
    (carvedN 16 w.shared : Int) ≤ p + MmapManager.oneCore.nPerSize 16 - 1 := by
  obtain ⟨p, hpeak⟩ := carveRun_alone.exists_peak fun w => liveN 16 w.shared
  exact ⟨_, p, by decide +kernel, bounded_growth _ _ 1 16 _ p oneCore_setting (by decide)
    (by decide) hpeak (by decide +kernel)⟩

end Runs

end FCMalloc.Machine
