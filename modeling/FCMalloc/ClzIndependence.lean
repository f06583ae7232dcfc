import FCMalloc.OwnershipRuns
import FCMalloc.SizeClasses

/-!
# FCMalloc.ClzIndependence

What the value of `__builtin_clz(0)` has to do with a run.

`logarithm2` comes to it for one argument, `2 ^ 32`. That is the size of a request, or that of
the block carved for a request of more than `2 ^ 31` and at most `2 ^ 32` bytes. A run without
such a request is the same whatever the value is: each function gives what it gives with 32 if
the classes it computes agree (`_congr`), they do as long as no block has the size, and so do
the steps and the runs (`run_iff`).
-/

namespace FCMalloc

open ByteMemory GlobalMemoryManager LocalMemoryManager

/-- The class of a request of `size` bytes, and of the block carved for it, does not depend on
the value of `clz(0)`, unless that is 32. -/
def Settled [ClzZero] (size : Nat) : Prop :=
  ClzZero.value = 32 ∨ size ≤ 2 ^ 31 ∨ 2 ^ 32 < size

/-! ### Sizes

In this module `f` is as compiled with the value at hand, `@f clzNoted` as with 32. -/

/-- Only for a request of more than `2 ^ 31` and at most `2 ^ 32` bytes is a block of `2 ^ 32`
bytes carved. -/
theorem bodySize_ne {size : Nat} (hlt : size < 2 ^ 64) (hrange : size ≤ 2 ^ 31 ∨ 2 ^ 32 < size) :
    bodySize size ≠ 2 ^ 32 := by
  rw [bodySize_eq_max]
  intro heq
  have hround : roundupPowerof2 size = 2 ^ 32 := by omega
  rcases Nat.eq_zero_or_pos size with rfl | hpos
  · exact absurd hround (by decide)
  by_cases hle : size ≤ 2 ^ 63
  · rw [roundupPowerof2_eq hpos hle] at hround
    have hclog : Nat.clog 2 size = 32 := Nat.pow_right_injective (Nat.le_refl 2) hround
    have hhigh : size ≤ 2 ^ 32 := (Nat.clog_le_iff_le_pow Nat.one_lt_two).mp (Nat.le_of_eq hclog)
    have hlow : ¬ size ≤ 2 ^ 31 := fun hsmall => by
      have := (Nat.clog_le_iff_le_pow Nat.one_lt_two).mpr hsmall
      omega
    omega
  · rw [roundupPowerof2_of_wrap (by omega) hlt] at hround
    exact absurd hround (by decide)

section Sizes

variable [z : ClzZero] {size v : Nat}

theorem builtinClz_congr (hv : v ≠ 0) : builtinClz v = @builtinClz clzNoted v := by
  unfold builtinClz
  rw [if_neg hv, if_neg hv]

theorem logarithm2_congr (hne : size ≠ 2 ^ 32) : logarithm2 size = @logarithm2 clzNoted size := by
  unfold logarithm2 logarithm2With
  dsimp only
  by_cases hsmall : size ≤ 8
  · rw [if_pos hsmall, if_pos hsmall]
  rw [if_neg hsmall, if_neg hsmall, if_pos (show size > 1 by omega)]
  split
  · rfl
  · split
    · rw [builtinClz_congr (by omega)]
    · rw [builtinClz_congr]
      rw [Nat.shiftRight_eq_div_pow]
      exact (Nat.div_pos (by omega) (by decide)).ne'

theorem sizeClass_congr (hne : size ≠ 2 ^ 32) : sizeClass size = @sizeClass clzNoted size :=
  Fin.ext (logarithm2_congr hne)

/-- With the value 32 there is nothing to compare. -/
theorem eq_clzNoted (hz : ClzZero.value = 32) : z = clzNoted := by
  obtain ⟨value, value_le⟩ := z
  obtain rfl : value = 32 := hz
  rfl

theorem Settled.sizeClass (h : Settled size) :
    FCMalloc.sizeClass size = @FCMalloc.sizeClass clzNoted size := by
  obtain hz | hrange := h
  · rw [eq_clzNoted hz]
  · exact sizeClass_congr (by omega)

theorem Settled.bodySize (h : Settled size) (hlt : size < 2 ^ 64) :
    FCMalloc.sizeClass (bodySize size) = @FCMalloc.sizeClass clzNoted (bodySize size) := by
  obtain hz | hrange := h
  · rw [eq_clzNoted hz]
  · exact sizeClass_congr (bodySize_ne hlt hrange)

end Sizes

/-! ### Lists and managers -/

section Lists

variable [ClzZero] {c : Config} {s : Process} {store : Store ListId} {m : LocalMemoryManager}
  {l : ListId} {core size n p ptr newPtr preSize : Nat}

theorem Store.malloc_congr (h : sizeClass size = @sizeClass clzNoted size) :
    store.malloc l size = @Store.malloc _ _ clzNoted store l size := by
  unfold Store.malloc
  rw [h]

theorem Store.free_congr (h : sizeClass (MemUtil.ptrToSize store.mem ptr) =
      @sizeClass clzNoted (MemUtil.ptrToSize store.mem ptr)) :
    store.free l ptr = @Store.free _ _ clzNoted store l ptr := by
  unfold Store.free
  unfold MemUtil.ptrToSize at h
  dsimp only
  rw [h]

theorem CommonMemoryPool.malloc_congr (h : sizeClass size = @sizeClass clzNoted size) :
    CommonMemoryPool.malloc c store l core size =
      @CommonMemoryPool.malloc clzNoted c store l core size := by
  unfold CommonMemoryPool.malloc
  rw [h, Store.malloc_congr h]

namespace LocalMemoryManager

theorem mallocOwn_congr (h : sizeClass size = @sizeClass clzNoted size) :
    m.mallocOwn store size = @mallocOwn clzNoted m store size := by
  unfold mallocOwn
  simp only [h, Store.malloc_congr h]

theorem free_congr (h : sizeClass (MemUtil.ptrToSize store.mem ptr) =
      @sizeClass clzNoted (MemUtil.ptrToSize store.mem ptr)) :
    m.free store ptr = @free clzNoted m store ptr := by
  unfold free
  rw [Store.free_congr h]

theorem mallocLast_congr (h : sizeClass size = @sizeClass clzNoted size) :
    m.mallocLast s size = @mallocLast clzNoted m s size := by
  unfold mallocLast
  rw [Store.malloc_congr h]

theorem moveBody_congr
    (h : let mem := copy s.store.mem newPtr ptr preSize
      sizeClass (MemUtil.ptrToSize mem ptr) = @sizeClass clzNoted (MemUtil.ptrToSize mem ptr)) :
    m.moveBody s newPtr ptr preSize = @moveBody clzNoted m s newPtr ptr preSize := by
  let s' := s.setMem (copy s.store.mem newPtr ptr preSize)
  have hfree : m.free s'.store ptr = @free clzNoted m s'.store ptr := free_congr h
  show { s' with store := m.free s'.store ptr } = _
  rw [hfree]
  rfl

end LocalMemoryManager

theorem Process.carveInto_congr (h : sizeClass size = @sizeClass clzNoted size) :
    s.carveInto c l core size n p = @Process.carveInto clzNoted c s l core size n p := by
  unfold Process.carveInto
  rw [h]

theorem Process.allocate_congr {main : Bool} {ret : Nat}
    {report : Store ListId → Option (Store ListId)} (h : sizeClass size = @sizeClass clzNoted size) :
    s.allocate c main l core size n ret report =
      @Process.allocate clzNoted c main s l core size n ret report := by
  unfold Process.allocate
  simp only [Process.carveInto_congr h]

namespace LocalMemoryManager

theorem mallocPrinting_congr (h : sizeClass size = @sizeClass clzNoted size) :
    m.mallocPrinting c store size = @mallocPrinting clzNoted c m store size := by
  unfold mallocPrinting
  simp only [mallocOwn_congr h, CommonMemoryPool.malloc_congr h]

theorem report_congr {asked : List Nat}
    (h : ∀ n ∈ asked, sizeClass n = @sizeClass clzNoted n) :
    m.report c asked = @report clzNoted c m asked := by
  funext store
  unfold report
  induction asked generalizing store with
  | nil => rfl
  | cons n asked ih =>
      rw [List.foldlM_cons, List.foldlM_cons, mallocPrinting_congr (h n List.mem_cons_self)]
      exact Option.bind_congr fun store' _ =>
        ih (fun n hn => h n (List.mem_cons_of_mem _ hn)) store'

theorem malloc_congr {main : Bool} {ret : Nat} {asked : List Nat}
    (h : sizeClass size = @sizeClass clzNoted size)
    (hasked : ∀ n ∈ asked, sizeClass n = @sizeClass clzNoted n) :
    m.malloc c main s size ret asked = @malloc clzNoted c main m s size ret asked := by
  unfold malloc
  simp only [mallocOwn_congr h, CommonMemoryPool.malloc_congr h, Process.allocate_congr h,
    report_congr hasked, h, mallocLast_congr h]

end LocalMemoryManager

/-- `calloc` asks for the wrapped product. -/
theorem Api.calloc_congr {main : Bool} {nmemb ret : Nat} {asked : List Nat}
    (h : sizeClass (u64 (nmemb * size)) = @sizeClass clzNoted (u64 (nmemb * size)))
    (hasked : ∀ n ∈ asked, sizeClass n = @sizeClass clzNoted n) :
    Api.calloc c main m s nmemb size ret asked =
      @Api.calloc clzNoted c main m s nmemb size ret asked := by
  unfold Api.calloc Api.malloc
  simp only [LocalMemoryManager.malloc_congr h hasked]

end Lists

namespace Machine

/-! ### Functions -/

/-- What the program asks for in an action is of a size in `P`. -/
def Action.Asks (P : Nat → Prop) : Action → Prop
  | .malloc size | .realloc _ size => P size
  | .calloc nmemb size => P (u64 (nmemb * size))
  | _ => True

/-- With 32 every size is settled. -/
theorem Action.asks_settled (a : Action) : a.Asks (@Settled clzNoted) := by
  cases a with
  | malloc | realloc | calloc => exact Or.inl rfl
  | start | exit | free | allFree | store | resume => trivial

/-- So is what is asked for in the functions under way. -/
def Requests (P : Nat → Prop) (stack : List Frame) : Prop :=
  ∀ f ∈ stack, ∀ r, f.request = some r → P r.size

/-- The class of every block does not depend on the value. -/
def Uniform [ClzZero] (s : Process) : Prop :=
  ∀ b ∈ s.carved, sizeClass b.size = @sizeClass clzNoted b.size

section Functions

variable [ClzZero] {c : Config} {main : Bool} {s : Shared} {th : Thread} {q : QueueId → List Nat}
  {r : Request} {f : Frame} {a : Action} {caller : Caller} {j p ptr ret size : Nat}

theorem Request.n_congr (h : Settled r.size) : r.n c = @Request.n c r clzNoted := by
  unfold Request.n
  rw [h.sizeClass]

theorem Request.mmapSize_congr (h : Settled r.size) :
    r.mmapSize c = @Request.mmapSize c r clzNoted := by
  unfold Request.mmapSize
  rw [r.n_congr h]

/-- What the caller does with its pointer: a `realloc` frees the old block. -/
theorem finish_congr (h : Popped c s q r ptr) (hsize : r.size < 2 ^ 64) (hgrow : Growing s r)
    (huniform : Uniform s.heap) : s.finish c r ptr = @Shared.finish c s clzNoted r ptr := by
  unfold Shared.finish
  by_cases hptr : ptr = 0
  · simp only [if_pos hptr]
  simp only [if_neg hptr]
  cases hcaller : r.caller with
  | malloc | calloc => rfl
  | realloc old preSize =>
      obtain ⟨-, hless, b, hb, rfl, -⟩ := hgrow old preSize hcaller
      have hgiven := h.give (copy s.heap.store.mem ptr b.body preSize) hptr hsize fun x hx =>
        if_neg (by omega)
      have hstored : MemUtil.ptrToSize (copy s.heap.store.mem ptr b.body preSize) b.body = b.size :=
        hgiven.heap.ptrToSize hb
      have hmove : (r.lm c).moveBody s.heap ptr b.body preSize =
          @moveBody clzNoted (r.lm c) s.heap ptr b.body preSize := by
        refine moveBody_congr ?_
        dsimp only
        rw [hstored]
        exact huniform b hb
      exact congrArg (fun heap => Shared.mk heap _ _) hmove

theorem enterMalloc_congr (h : Owned c s q) (hr : RequestOk c s r) (huniform : Uniform s.heap)
    (hsettled : Settled r.size) : enterMalloc c s th r = @enterMalloc c s th clzNoted r := by
  obtain ⟨hptr, hheap⟩ := h.heap.mallocOwn hr.manager r.size
  have hpop := h.pop hr.manager (h.heap.dealt_own hr.manager) hheap rfl hptr
  unfold enterMalloc
  rw [if_neg hr.size_ne, if_neg hr.size_ne, mallocOwn_congr hsettled.sizeClass]
  dsimp only
  split
  · exact congrArg (Result.next · th) (finish_congr hpop hr.size_lt hr.grows huniform)
  · rfl

theorem malloc_congr (h : Owned c s q) (hlease : ∀ j, th.lp = some j → j < managerN c)
    (hsize : size < 2 ^ 64) (hgrow : ∀ j, Growing s ⟨j, size, caller⟩) (huniform : Uniform s.heap)
    (hsettled : Settled size) : malloc c s th size caller = @malloc c s th clzNoted size caller := by
  unfold malloc
  split
  · rfl
  case isFalse hne =>
    split
    · rfl
    case h_2 j hlp =>
      exact enterMalloc_congr h ⟨hlease j hlp, hne, hsize, hgrow j⟩ huniform hsettled

theorem serve_congr (hc : Setting c) (h : Owned c s q) (hr : RequestOk c s r)
    (hgranted : Granted s.heap c p (@Request.mmapSize c r clzNoted)) (huniform : Uniform s.heap)
    (hsettled : Settled r.size) :
    serve c s th r p = @serve c s th clzNoted r p := by
  have hlist : listCore c (r.lm c).mallocList = some (r.lm c).core := listCore_mallocList hr.manager
  obtain ⟨heap, hrun, hcarved, -, -, hinv, -⟩ := h.heap.carveInto hc.fits
    (Nat.pos_of_ne_zero hr.size_ne) rfl hr.core_lt hlist hgranted
  obtain ⟨hptr, hlast⟩ := hinv.mallocLast (r.lm c) r.size
  have hpop := (h.carve hinv hcarved).pop hr.manager hinv.dealt_refl hlast rfl hptr
  have hgrow : Growing { s with heap } r := by
    intro old preSize hcaller
    obtain ⟨hlive, hless, b, hb, hbody⟩ := hr.grows old preSize hcaller
    exact ⟨hlive, hless, b, hcarved ▸ List.mem_append_left _ hb, hbody⟩
  have hnew : Uniform heap := by
    intro b hb
    rw [hcarved] at hb
    rcases List.mem_append.mp hb with hold | hnew
    · exact huniform b hold
    · obtain ⟨i, -, rfl⟩ := List.mem_map.mp hnew
      exact hsettled.bodySize hr.size_lt
  unfold serve
  rw [Process.carveInto_congr hsettled.sizeClass, r.n_congr hsettled, Request.n, hrun]
  dsimp only
  rw [mallocLast_congr hsettled.sizeClass]
  exact congrArg (Result.next · th) (finish_congr hpop hr.size_lt hgrow hnew)

/-- Every function, from a mutex operation on. -/
theorem resume_congr (hc : Setting c) (h : Owned c s q) (hf : FrameOk c main s f)
    (hfresh : ∀ r, f = .allocate r →
      s.heap.mm.needsExtension c (r.arena c main) (@Request.mmapSize c r clzNoted) = true →
      c.Fresh s.heap.mm.maps ret
        (align (MmapManager.allocSize (@Request.mmapSize c r clzNoted)) c.pageSize))
    (huniform : Uniform s.heap) (hsettled : ∀ r, f.request = some r → Settled r.size) :
    resume c main s th ret f = @resume c main s th clzNoted ret f := by
  cases f with
  | pool r =>
      obtain ⟨hptr, hheap⟩ := h.heap.mallocPool hf.manager hf.size_ne
      have hpop := h.pop hf.manager (h.heap.dealt_pool hf.manager) hheap rfl hptr
      unfold resume
      dsimp only
      rw [CommonMemoryPool.malloc_congr (hsettled r rfl).sizeClass]
      split
      · exact congrArg (Result.next · th) (finish_congr hpop hf.size_lt hf.grows huniform)
      · rfl
  | allocate r =>
      have hr := hsettled r rfl
      unfold resume
      dsimp only
      rw [r.mmapSize_congr hr]
      cases henter : s.heap.mm.enter c main (r.lm c).core (@Request.mmapSize c r clzNoted) ret with
      | none => rfl
      | some e =>
          obtain ⟨served, mm, touched⟩ := e
          obtain ⟨hheap, -, hserved, -⟩ := h.heap.enter hc.force (Nat.le_of_lt hf.core_lt)
            (r.dvd_mmapSize c) (HeapInv.mmapSize_wrap hc.fits (Nat.pos_of_ne_zero hf.size_ne))
            (hfresh r rfl) henter
          cases served with
          | none => rfl
          | some p =>
              exact serve_congr hc (h.reheap hheap rfl fun _ => Iff.rfl) (RequestOk.reheap hf rfl)
                (hserved p rfl) huniform hr
  | printing r phase =>
      obtain ⟨hr, ⟨hfit, hflag⟩, hphase⟩ := hf
      cases phase with
      | extended | reporting => rfl
      | reported =>
          obtain ⟨hheap, hgranted⟩ := h.heap.serve hr.arena_lt hfit hflag (r.dvd_mmapSize c)
          unfold resume
          dsimp only
          rw [r.mmapSize_congr (hsettled r rfl)]
          split
          · rfl
          · exact serve_congr hc (h.reheap hheap rfl fun _ => Iff.rfl) (RequestOk.reheap hr rfl)
              hgranted huniform (hsettled r rfl)
      | exhausted => exact absurd rfl hphase
  | freeing j ptr =>
      obtain ⟨b, hb, rfl⟩ := h.live_carved ptr hf.2
      have hclass := huniform b hb
      rw [← h.heap.ptrToSize hb] at hclass
      unfold resume
      dsimp only
      rw [LocalMemoryManager.free_congr hclass]
  | release j | flush j i => rfl

theorem countFree_congr (hclass : sizeClass (MemUtil.ptrToSize s.heap.store.mem ptr) =
      @sizeClass clzNoted (MemUtil.ptrToSize s.heap.store.mem ptr)) :
    countFree c main s th j ptr = @countFree c main s th clzNoted j ptr := by
  unfold countFree
  dsimp only
  rw [hclass]

/-- `free`, with its counter. -/
theorem free_congr (h : Owned c s q) (hlease : ∀ j, th.lp = some j → j < managerN c)
    (hlive : ptr ≠ 0 → ptr ∈ s.live) (huniform : Uniform s.heap) :
    free c main s th ptr = @free c main s th clzNoted ptr := by
  unfold free
  split
  · rfl
  case isFalse hne =>
    split
    · rfl
    case h_2 j hlp =>
      obtain ⟨b, hb, rfl⟩ := h.live_carved ptr (hlive hne)
      have hclass := huniform b hb
      have hloose := (h.live_iff b hb).mp (hlive hne)
      let s' : Shared := { s.setStore (@LocalMemoryManager.free clzNoted (managerPools c j)
        s.heap.store b.body) with live := s.live.erase b.body }
      have hfreed : MemUtil.ptrToSize s'.heap.store.mem b.body = b.size :=
        (h.heap.free (hlease j hlp) hb hloose).ptrToSize hb
      have hstill := hclass
      rw [← hfreed] at hstill
      have hcount : countFree c main s' th j b.body = @countFree c main s' th clzNoted j b.body :=
        countFree_congr hstill
      rw [← h.heap.ptrToSize hb] at hclass
      rw [LocalMemoryManager.free_congr hclass]
      exact congrArg (Result.next s') hcount

theorem act_congr (hc : Setting c) (h : Owned c s q)
    (hlease : ∀ j, th.lp = some j → j < managerN c)
    (hframes : ∀ f ∈ th.stack, FrameOk c main s f) (hok : @ActOk clzNoted c main s th a)
    (huniform : Uniform s.heap)
    (hrequests : Requests Settled th.stack)
    (hsettled : a.Asks Settled) : act c main s th a = @act c main s th clzNoted a := by
  cases a with
  | start core | exit | allFree | store addr v => rfl
  | malloc size => exact malloc_congr h hlease hok (fun _ _ _ heq => by simp at heq) huniform hsettled
  | calloc nmemb size =>
      unfold act calloc
      dsimp only
      split
      · rfl
      · exact malloc_congr h hlease (u64_lt _) (fun _ _ _ heq => by simp at heq) huniform hsettled
  | realloc ptr size =>
      obtain ⟨hsize, hlive⟩ := hok
      unfold act realloc
      dsimp only
      split
      case isTrue =>
        exact malloc_congr h hlease hsize (fun _ _ _ heq => by simp at heq) huniform hsettled
      case isFalse hne =>
        split
        · rfl
        case h_2 j hlp =>
          split
          · rfl
          case isFalse hgrows =>
            obtain ⟨b, hb, rfl⟩ := h.live_carved ptr (hlive hne)
            have hne0 : size ≠ 0 := by omega
            refine enterMalloc_congr h ⟨hlease j hlp, hne0, hsize, ?_⟩ huniform hsettled
            intro old preSize hcaller
            obtain ⟨rfl, rfl⟩ := Caller.realloc.inj hcaller
            exact ⟨hlive hne, Nat.lt_of_not_le hgrows, b, hb, rfl, (h.heap.ptrToSize hb).symm⟩
  | free ptr => exact free_congr h hlease hok huniform
  | resume ret =>
      unfold act
      dsimp only
      cases hstack : th.stack with
      | nil => rfl
      | cons f rest =>
          have hmem : f ∈ th.stack := hstack ▸ List.mem_cons_self
          refine resume_congr hc h (hframes f hmem) ?_ huniform (hrequests f hmem)
          rintro r rfl
          exact hok r (by simp [hstack])

/-- The mutex a step locks. -/
theorem locks_congr (hrequests : Requests Settled th.stack) :
    locks c main s th a = @locks clzNoted c main s th a := by
  cases a with
  | resume ret =>
      unfold locks
      dsimp only
      cases hstack : th.stack with
      | nil => rfl
      | cons f rest =>
          cases f with
          | printing r phase =>
              have hr := hrequests (.printing r phase) (by simp [hstack]) r rfl
              cases phase with
              | reported => simp only [Frame.locks, r.mmapSize_congr hr]
              | extended | reporting | exhausted => rfl
          | pool | allocate | freeing | release | flush => rfl
  | start | exit | malloc | calloc | realloc | free | allFree | store => rfl

/-- What the program and the system may do. -/
theorem actOk_congr (hrequests : Requests Settled th.stack) :
    ActOk c main s th a ↔ @ActOk clzNoted c main s th a := by
  cases a with
  | resume ret =>
      refine forall_congr' fun r => forall_congr' fun hr => ?_
      rw [r.mmapSize_congr (hrequests _ (List.mem_of_mem_head? hr) r rfl)]
  | start | exit | malloc | calloc | realloc | free | allFree | store => exact Iff.rfl

end Functions

/-! ### Steps and runs -/

section Blocks

variable {c : Config} {main : Bool} {s s' : Shared} {th th' : Thread} {r : Request} {f : Frame}
  {a : Action} {p ret : Nat} {b : Block}

/-- The carving loop makes blocks of one size. -/
theorem carveLoop_sizes {numCores core size totalSize n fuel i : Nat} {t t' : Carving}
    (h : carveLoop numCores core size totalSize n fuel i t = some t')
    (hsizes : ∀ b ∈ t.carved, b.size = size) : ∀ b ∈ t'.carved, b.size = size := by
  induction fuel generalizing i t with
  | zero => exact absurd h (by simp [carveLoop])
  | succ fuel ih =>
      rw [carveLoop] at h
      split at h
      · refine ih h fun b hb => ?_
        rw [carveOne] at hb
        rcases List.mem_append.mp hb with hold | hnew
        · exact hsizes b hold
        · obtain rfl := List.mem_singleton.mp hnew
          rfl
      · obtain rfl := Option.some.inj h
        exact hsizes

theorem serve_blocks (h : serve c s th r p = .next s' th') (hb : b ∈ s'.heap.carved) :
    b ∈ s.heap.carved ∨ b.size = bodySize r.size := by
  obtain ⟨-, heap, hheap, rfl⟩ := serve_next h
  rw [finish_carved] at hb
  obtain ⟨u, hu, rfl⟩ := Option.map_eq_some_iff.mp hheap
  unfold carve at hu
  obtain ⟨t, ht, rfl⟩ := Option.map_eq_some_iff.mp hu
  rcases List.mem_append.mp hb with hold | hnew
  · exact Or.inl hold
  · exact Or.inr (carveLoop_sizes ht (by simp) b hnew)

/-- Only `Malloc` carves, for the request it works on. -/
theorem resume_blocks (h : resume c main s th ret f = .next s' th') (hb : b ∈ s'.heap.carved) :
    b ∈ s.heap.carved ∨ ∃ r, f.request = some r ∧ b.size = bodySize r.size := by
  cases f with
  | pool r =>
      obtain ⟨-, rfl, -⟩ | ⟨-, rfl, -⟩ := resume_pool h
      · rw [finish_carved] at hb
        exact Or.inl hb
      · exact Or.inl hb
  | allocate r =>
      obtain ⟨_, _, _, -, ⟨p, -, hserve⟩ | ⟨-, rfl, -⟩⟩ := resume_allocate h
      · exact (serve_blocks hserve hb).imp id fun hsize => ⟨r, rfl, hsize⟩
      · exact Or.inl hb
  | printing r phase =>
      cases phase with
      | extended | reporting =>
          obtain ⟨rfl, -⟩ := Result.next.inj h
          exact Or.inl hb
      | reported =>
          obtain ⟨-, rfl, -⟩ | ⟨-, hserve⟩ := resume_reported h
          · exact Or.inl hb
          · exact (serve_blocks hserve hb).imp id fun hsize => ⟨r, rfl, hsize⟩
      | exhausted => exact (serve_blocks h hb).imp id fun hsize => ⟨r, rfl, hsize⟩
  | freeing j ptr | release j | flush j i =>
      obtain ⟨rfl, -⟩ := Result.next.inj h
      exact Or.inl hb

theorem enterMalloc_blocks (h : enterMalloc c s th r = .next s' th') :
    s'.heap.carved = s.heap.carved := by
  obtain ⟨-, rfl, -⟩ | ⟨-, -, -, rfl⟩ | ⟨-, -, -, rfl⟩ := enterMalloc_next h
  · exact finish_carved
  · exact finish_carved
  · rfl

theorem malloc_blocks {size : Nat} {caller : Caller} (h : malloc c s th size caller = .next s' th') :
    s'.heap.carved = s.heap.carved := by
  obtain ⟨-, rfl, -⟩ | ⟨j, -, -, henter⟩ := malloc_next h
  · rfl
  · exact enterMalloc_blocks henter

/-- **The blocks after a step.** -/
theorem act_blocks (h : act c main s th a = .next s' th') (hb : b ∈ s'.heap.carved) :
    b ∈ s.heap.carved ∨
      ∃ f ∈ th.stack, ∃ r, f.request = some r ∧ b.size = bodySize r.size := by
  cases a with
  | start core =>
      obtain ⟨rfl, -⟩ := Result.next.inj h
      exact Or.inl hb
  | exit =>
      rw [act, threadTerm] at h
      split at h <;> obtain ⟨rfl, -⟩ := Result.next.inj h <;> exact Or.inl hb
  | malloc size => exact Or.inl (malloc_blocks h ▸ hb)
  | calloc nmemb size =>
      obtain ⟨rfl, -⟩ | ⟨j, -, -, henter⟩ := calloc_next h
      · exact Or.inl hb
      · exact Or.inl (enterMalloc_blocks henter ▸ hb)
  | realloc ptr size =>
      obtain ⟨-, hmalloc⟩ | ⟨-, -, -, rfl⟩ | ⟨j, -, -, -, henter⟩ := realloc_next h
      · exact Or.inl (malloc_blocks hmalloc ▸ hb)
      · exact Or.inl hb
      · exact Or.inl (enterMalloc_blocks henter ▸ hb)
  | free ptr =>
      obtain ⟨-, rfl, -⟩ | ⟨-, -, hlate⟩ | ⟨j, -, -, rfl, -⟩ := free_next h
      · exact Or.inl hb
      · obtain ⟨j, -, -, rfl⟩ := lateFree_next hlate
        exact Or.inl hb
      · exact Or.inl hb
  | allFree =>
      obtain ⟨j, -, rfl, -⟩ := allFree_next h
      exact Or.inl hb
  | store addr v =>
      obtain ⟨rfl, -⟩ := Result.next.inj h
      exact Or.inl hb
  | resume ret =>
      rw [act] at h
      split at h
      · exact absurd h (by simp)
      case h_2 f rest hstack =>
        exact (resume_blocks h hb).imp id fun hnew => ⟨f, hstack ▸ List.mem_cons_self, hnew⟩

/-- The sizes asked for in the functions under way were asked for by the program. -/
theorem act_requests {P : Nat → Prop} (h : Requests P th.stack) (hasks : a.Asks P)
    (hact : act c main s th a = .next s' th') : Requests P th'.stack := by
  have hcall : ∀ r, enterMalloc c s th r = .next s' th' → P r.size → Requests P th'.stack := by
    intro r henter hr f hf r' hr'
    obtain rfl | ⟨rfl, -⟩ := enterMalloc_stack henter
    · exact h f hf r' hr'
    · rcases List.mem_cons.mp hf with rfl | hf
      · obtain rfl := Option.some.inj hr'
        exact hr
      · exact h f hf r' hr'
  have hmalloc : ∀ {size caller}, P size → malloc c s th size caller = .next s' th' →
      Requests P th'.stack := by
    intro size caller hsize hnext
    obtain ⟨-, -, rfl⟩ | ⟨j, -, -, henter⟩ := malloc_next hnext
    · exact h
    · exact hcall _ henter hsize
  cases a with
  | malloc size => exact hmalloc hasks hact
  | calloc nmemb size =>
      obtain ⟨-, rfl⟩ | ⟨j, -, -, henter⟩ := calloc_next hact
      · exact h
      · exact hcall _ henter hasks
  | realloc ptr size =>
      obtain ⟨-, hnext⟩ | ⟨-, -, rfl, -⟩ | ⟨j, -, -, -, henter⟩ := realloc_next hact
      · exact hmalloc hasks hnext
      · exact h
      · exact hcall _ henter hasks
  | start | exit | free | allFree | store | resume =>
      intro f hf r hr
      obtain ⟨hstack, -⟩ | ⟨g, hstack, -, hstarts⟩ | ⟨ret, g, rest, -, hold, -, hnew⟩ :=
        act_stack hact
      · exact h f (hstack ▸ hf) r hr
      · rw [hstack, List.mem_cons] at hf
        rcases hf with rfl | hf
        · cases hstarts <;> exact absurd hr (by simp [Frame.request])
        · exact h f hf r hr
      · have hrest : f ∈ rest → P r.size := fun hin =>
          h f (hold ▸ List.mem_cons_of_mem g hin) r hr
        obtain hstack | ⟨g', hstack, hfollows⟩ := hnew
        · exact hrest (hstack ▸ hf)
        · rw [hstack, List.mem_cons] at hf
          rcases hf with rfl | hf
          · exact h g (hold ▸ List.mem_cons_self) r (hfollows.request hr)
          · exact hrest hf

theorem FrameOk.size_lt (h : FrameOk c main s f) (hr : f.request = some r) : r.size < 2 ^ 64 := by
  cases f with
  | pool r' | allocate r' =>
      obtain rfl := Option.some.inj hr
      exact RequestOk.size_lt h
  | printing r' phase =>
      obtain rfl := Option.some.inj hr
      exact h.1.size_lt
  | freeing j ptr | release j | flush j i => exact absurd hr (by simp [Frame.request])

end Blocks

/-- Classes do not depend on the value: those of the blocks, and those of the requests under
way. -/
structure SettledInv [ClzZero] (w : World) : Prop where
  uniform : Uniform w.shared.heap
  requests : ∀ t, Requests Settled (w.threads t).stack

section Runs

variable [ClzZero] {c : Config} {base : Nat → Nat} {w w' : World} {t : Nat} {a : Action}

/-- **A step** is what it is with the value 32. -/
theorem step_congr (hc : Setting c) (h : OwnershipInv c w) (hsettled : SettledInv w)
    (hok : @ActOk clzNoted c (mainThread t) w.shared (w.threads t) a) (hasks : a.Asks Settled) :
    w.step c t a = @World.step clzNoted c w t a := by
  obtain ⟨q, hq⟩ := h.owned
  have hact := act_congr hc hq (h.leases t) (h.frames t) hok hsettled.uniform
    (hsettled.requests t) hasks
  have hgo : w.go c t a = @World.go clzNoted c w t a := by
    unfold World.go
    rw [hact]
  unfold World.step
  rw [locks_congr (hsettled.requests t), hgo]

theorem legal_congr (hsettled : SettledInv w) :
    Legal c w (t, a) ↔ @Legal clzNoted c w (t, a) := by
  have hok : ActOk c (mainThread t) w.shared (w.threads t) a ↔
      @ActOk clzNoted c (mainThread t) w.shared (w.threads t) a := actOk_congr (hsettled.requests t)
  constructor
  · exact fun h => @Legal.mk clzNoted _ _ _ (hok.mp h.act) h.once
  · exact fun h => ⟨hok.mpr (@Legal.act clzNoted _ _ _ h), @Legal.once clzNoted _ _ _ h⟩

theorem SettledInv.start (mem : ByteMemory.Memory) : SettledInv (World.init c base mem) where
  uniform := by simp [Uniform, World.init, Process.init]
  requests _ _ hf := absurd hf List.not_mem_nil

/-- **The invariant** of the runs in which all sizes asked for are settled. -/
theorem SettledInv.step (h : OwnershipInv c w) (hsettled : SettledInv w)
    (hasks : a.Asks Settled) (hstep : @World.step clzNoted c w t a = .next w') : SettledInv w' := by
  obtain ⟨-, -, s, th, hact, rfl⟩ := @World.step_next clzNoted _ _ _ _ _ hstep
  constructor
  case uniform =>
    intro b hb
    obtain hold | ⟨f, hf, r, hr, hsize⟩ := act_blocks hact hb
    · exact hsettled.uniform b hold
    · rw [hsize]
      exact (hsettled.requests t f hf r hr).bodySize ((h.frames t f hf).size_lt hr)
  case requests =>
    exact World.forall_commit (P := fun _ th => Requests Settled th.stack) hsettled.requests
      (act_requests (hsettled.requests t) hasks hact)

/-- A step that is legal and asks for a settled size. -/
def LegalSettled (c : Config) (w : World) (a : Nat × Action) : Prop :=
  Legal c w a ∧ a.2.Asks Settled

/-- A state that such steps lead to, with the value 32. -/
theorem settled_run (hc : Setting c) (hbase : c.FreshBase base)
    (hrun : (@system clzNoted c base).Run
      (fun w a => @Legal clzNoted c w a ∧ a.2.Asks Settled) w) :
    OwnershipInv c w ∧ SettledInv w := by
  refine hrun.invariant (motive := fun w => OwnershipInv c w ∧ SettledInv w) ?_ ?_
  · rintro _ ⟨mem, rfl⟩
    exact ⟨OwnershipInv.start hbase mem, .start mem⟩
  · exact fun w a w' ⟨hinv, hsettled⟩ ⟨hlegal, hasks⟩ hstep =>
      ⟨(hinv.step hc hlegal hstep).1, hsettled.step hinv hasks hstep⟩

/-- **Runs do not depend on the value of `clz(0)`** as long as the program asks for settled
sizes only, nor do further conditions on their steps that are the same with the value 32. -/
theorem run_iff_of {P Q : World → Nat × Action → Prop} (hc : Setting c) (hbase : c.FreshBase base)
    (hsame : ∀ w a, OwnershipInv c w → SettledInv w → @Legal clzNoted c w a →
      a.2.Asks Settled → (P w a ↔ Q w a)) :
    (system c base).Run (fun w a => LegalSettled c w a ∧ P w a) w ↔
      (@system clzNoted c base).Run
        (fun w a => (@Legal clzNoted c w a ∧ a.2.Asks Settled) ∧ Q w a) w := by
  constructor
  · intro hrun
    induction hrun with
    | start hw => exact .start hw
    | @step w w' a _ hok hstep ih =>
        obtain ⟨⟨hlegal, hasks⟩, hP⟩ := hok
        obtain ⟨hinv, hsettled⟩ := settled_run hc hbase (ih.mono fun _ _ h => h.1)
        have hnoted := (legal_congr hsettled).mp hlegal
        have hstep' := step_congr hc hinv hsettled (@Legal.act clzNoted _ _ _ hnoted) hasks
        have hQ := (hsame w a hinv hsettled hnoted hasks).mp hP
        exact .step ih ⟨⟨hnoted, hasks⟩, hQ⟩ (hstep'.symm.trans hstep)
  · intro hrun
    induction hrun with
    | start hw => exact .start hw
    | @step w w' a hbefore hok hstep ih =>
        obtain ⟨⟨hnoted, hasks⟩, hQ⟩ := hok
        obtain ⟨hinv, hsettled⟩ := settled_run hc hbase (hbefore.mono fun _ _ h => h.1)
        have hlegal := (legal_congr hsettled).mpr hnoted
        have hstep' := step_congr hc hinv hsettled (@Legal.act clzNoted _ _ _ hnoted) hasks
        have hP := (hsame w a hinv hsettled hnoted hasks).mpr hQ
        exact .step ih ⟨⟨hlegal, hasks⟩, hP⟩ (hstep'.trans hstep)

theorem run_iff (hc : Setting c) (hbase : c.FreshBase base) :
    (system c base).Run (LegalSettled c) w ↔
      (@system clzNoted c base).Run (fun w a => @Legal clzNoted c w a ∧ a.2.Asks Settled) w := by
  have hiff := run_iff_of (P := fun _ _ => True) (Q := fun _ _ => True) (w := w) hc hbase
    fun _ _ _ _ _ _ => Iff.rfl
  constructor
  · intro hrun
    exact (hiff.mp (hrun.mono fun _ _ h => ⟨h, trivial⟩)).mono fun _ _ h => h.1
  · intro hrun
    exact (hiff.mpr (hrun.mono fun _ _ h => ⟨h, trivial⟩)).mono fun _ _ h => h.1

/-- From a state of such a run on, what is seen of the steps is seen with the value 32 too. -/
theorem path_noted {ε : Type} {see : World → Nat × Action → World → ε} {es : List ε}
    (hc : Setting c) (hinv : OwnershipInv c w) (hsettled : SettledInv w)
    (hpath : Traced ((system c base).Sees (LegalSettled c) see) w es w') :
    Traced ((@system clzNoted c base).Sees (@Legal clzNoted c) see) w es w' := by
  suffices h : (OwnershipInv c w' ∧ SettledInv w') ∧
      Traced ((@system clzNoted c base).Sees (@Legal clzNoted c) see) w es w' from h.2
  induction hpath with
  | nil => exact ⟨⟨hinv, hsettled⟩, .nil⟩
  | snoc _ hsees ih =>
      obtain ⟨⟨hinv₁, hsettled₁⟩, hbefore⟩ := ih
      obtain ⟨a, ⟨hlegal, hasks⟩, hstep, rfl⟩ := hsees
      have hnoted := (legal_congr hsettled₁).mp hlegal
      have hsame := step_congr hc hinv₁ hsettled₁ (@Legal.act clzNoted _ _ _ hnoted) hasks
      have hstep' := hsame.symm.trans hstep
      exact ⟨⟨(hinv₁.step hc hnoted hstep').1, hsettled₁.step hinv₁ hasks hstep'⟩,
        .snoc hbefore ⟨a, hnoted, hstep', rfl⟩⟩

/-- From the start on, in particular. -/
theorem path_noted_init {ε : Type} {see : World → Nat × Action → World → ε} {es : List ε}
    {mem : ByteMemory.Memory} (hc : Setting c) (hbase : c.FreshBase base)
    (hpath : Traced ((system c base).Sees (LegalSettled c) see) (World.init c base mem) es w) :
    Traced ((@system clzNoted c base).Sees (@Legal clzNoted c) see) (World.init c base mem) es w :=
  path_noted hc (OwnershipInv.start hbase mem) (.start mem) hpath

end Runs

/-- `carveRun` asks for 64 KB. -/
theorem carveRun_asks {P : Nat → Prop} (h : P 65536) :
    (system MmapManager.oneCore MmapManager.oneCoreBase).Run
      (fun w a => Legal MmapManager.oneCore w a ∧ a.2.Asks P) (Option.get _ carveRun_made) := by
  have hprefix : (∀ a ∈ carveRun, a.2.Asks P) → (system MmapManager.oneCore
      MmapManager.oneCoreBase).Run (fun w a => Legal MmapManager.oneCore w a ∧ a.2.Asks P)
        (Option.get _ carveRun_made) := by
    refine carveRun_path.invariant (motive := fun as w => (∀ a ∈ as, a.2.Asks P) →
      (system MmapManager.oneCore MmapManager.oneCoreBase).Run _ w)
      (fun _ => .start ⟨_, rfl⟩) fun as w a w' ih hs hall => ?_
    obtain ⟨a, hlegal, hstep, rfl⟩ := hs
    exact .step (ih fun b hb => hall b (List.mem_append_left _ hb))
      ⟨hlegal, hall a (List.mem_append_right _ List.mem_cons_self)⟩ hstep
  refine hprefix fun a ha => ?_
  simp only [carveRun, List.mem_cons, List.not_mem_nil, or_false] at ha
  obtain rfl | rfl | rfl | rfl := ha
  · trivial
  · exact h
  · trivial
  · trivial

/-- It is the same run whatever `clz(0)` is. -/
theorem carveRun_settled [ClzZero] : (system MmapManager.oneCore MmapManager.oneCoreBase).Run
    (LegalSettled MmapManager.oneCore) (Option.get _ carveRun_made) :=
  (run_iff oneCore_setting (by decide)).mpr (carveRun_asks (Or.inr (Or.inl (by decide))))

end Machine

end FCMalloc
