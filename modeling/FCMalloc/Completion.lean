import FCMalloc.Deadlock
import FCMalloc.EndToEnd

/-!
# FCMalloc.Completion

Every call comes to its end.

Two facts make it so. A call takes a bounded number of steps (`Frame.left` is what a function
has left, and `left_step` that a step uses one up): at most six after its first for `malloc`,
two for a `free` on a leased manager, one for each core for a flush. This holds of every run
whatsoever. And somebody can always
take the next one (`progress`): a thread that waits for a mutex waits for a thread that waits
for a mutex of higher rank, if for any, and there are only four ranks. Mutexes do not cover
the two loops of the arena that may not end; the condition on the sizes of the arenas is that
of `FirstTouch`, and the table keeps the count of the carving loop in range.
-/

namespace FCMalloc.Machine

open GlobalMemoryManager LocalMemoryManager

/-- The number of steps a function takes at most before it returns. -/
def Frame.left (c : Config) : Frame → Nat
  | .pool _ => 6
  | .allocate _ => 5
  | .printing _ .extended => 4
  | .printing _ .reporting => 3
  | .printing _ .reported => 2
  | .printing _ .exhausted => 1
  | .freeing _ _ => 2
  | .release _ => 1
  | .flush j i => max 1 ((managerPools c j).coreN - i)

/-- The same for all the functions a thread is in. -/
def Thread.left (c : Config) (th : Thread) : Nat := (th.stack.map (Frame.left c)).sum

/-- The number of further steps that a call may take. -/
def Action.cost (c : Config) : Action → Nat
  | .malloc _ | .calloc _ _ | .realloc _ _ => 6
  | .free _ => max 2 c.coreN
  | .allFree => c.coreN
  | .start _ | .exit | .store _ _ | .resume _ => 0

/-- Whether an action goes on with a call. -/
def Action.resumes : Action → Bool
  | .resume _ => true
  | _ => false

section Left

variable [ClzZero] {c : Config} {base : Nat → Nat} {main : Bool} {s : Shared} {th : Thread}
  {a : Action} {f f' : Frame} {w w' : World} {t t' : Nat}

omit [ClzZero] in
theorem Starts.left_le (h : Starts th a f) : f.left c ≤ a.cost c := by
  have hflush : ∀ j, (Frame.flush j 0).left c ≤ c.coreN := fun j =>
    Nat.max_le.mpr ⟨c.coreN_pos, coreN_manager_le c j⟩
  cases h with
  | malloc | calloc | realloc => exact Nat.le_refl 6
  | lateFree => exact Nat.le_max_left 2 c.coreN
  | free => exact (hflush _).trans (Nat.le_max_right 2 c.coreN)
  | allFree => exact hflush _

/-- **A function that goes on** has one step less to take. -/
theorem Follows.left_lt (h : Follows c main s f f') : f'.left c < f.left c := by
  cases h with
  | allocate | extended | reporting | reported | exhausted | release => simp [Frame.left]
  | flush hlt =>
      simp only [Frame.left]
      omega

omit [ClzZero] in
theorem Frame.left_pos (f : Frame) : 0 < f.left c := by
  cases f with
  | pool r | allocate r | freeing j ptr | release j => simp [Frame.left]
  | printing r phase => cases phase <;> simp [Frame.left]
  | flush j i => exact Nat.le_max_left 1 _

/-- **A step** leaves the other threads where they are. In its own it takes one off what is
left of the calls, or it starts one. -/
theorem left_step (hstep : w.step c t a = .next w') :
    (∀ t', t' ≠ t → (w'.threads t').left c = (w.threads t').left c) ∧
      (w'.threads t).left c + (if a.resumes then 1 else 0) ≤ (w.threads t).left c + a.cost c := by
  obtain ⟨-, -, s, th, hact, rfl⟩ := World.step_next hstep
  rw [World.commit_threads]
  refine ⟨fun t' ht => by rw [Function.update_of_ne ht], ?_⟩
  rw [Function.update_self]
  have hstack := act_stack hact
  cases a with
  | resume ret =>
      rw [act] at hact
      split at hact
      · exact absurd hact (by simp)
      case h_2 f rest hbefore =>
        have hleft : (w.threads t).left c = f.left c + (rest.map (Frame.left c)).sum := by
          rw [Thread.left, hbefore, List.map_cons, List.sum_cons]
        obtain rfl | ⟨f', rfl, hfollows⟩ := resume_stack hact
        · have hpos := f.left_pos (c := c)
          rw [hleft]
          simp only [Thread.left, Action.resumes, Action.cost, if_true]
          omega
        · have hlt := hfollows.left_lt
          rw [hleft]
          simp only [Thread.left, Thread.push, List.map_cons, List.sum_cons, Action.resumes,
            Action.cost, if_true]
          omega
  | _ =>
      simp only [Action.resumes, Bool.false_eq_true, if_false, Nat.add_zero]
      obtain ⟨hsame, -⟩ | ⟨f, hpush, -, hstarts⟩ | ⟨ret, f, rest, heq, -⟩ := hstack
      · rw [Thread.left, hsame]
        exact Nat.le_add_right _ _
      · have hle := hstarts.left_le (c := c)
        rw [Thread.left, hpush, List.map_cons, List.sum_cons, Nat.add_comm]
        exact Nat.add_le_add_left hle _
      · exact absurd heq (by simp)

/-- What thread `t` may take for the calls it has begun. -/
def allowance (c : Config) (t : Nat) (as : List (Nat × Action)) : Nat :=
  (as.map fun a => if a.1 = t then a.2.cost c else 0).sum

/-- **Calls are short.** In every run, for any number of threads and in any order of their
steps, the steps a thread takes to go on with its calls are at most those its calls allow: six
for each allocation, two or one for each core for a `free`, one for each core for a flush. -/
theorem resumes_le_allowance (c : Config) (base : Nat → Nat) (mem : ByteMemory.Memory)
    (ok : World → Nat × Action → Prop) (w : World) (as : List (Nat × Action))
    (hpath : Traced ((system c base).Sees ok fun _ a _ => a) (World.init c base mem) as w)
    (t : Nat) : as.countP (fun a => a.1 = t ∧ a.2.resumes) ≤ allowance c t as := by
  suffices h : (w.threads t).left c + as.countP (fun a => a.1 = t ∧ a.2.resumes) ≤
      allowance c t as by
    omega
  refine hpath.invariant (motive := fun as w => (w.threads t).left c +
    as.countP (fun a => a.1 = t ∧ a.2.resumes) ≤ allowance c t as)
    (Nat.le_refl 0) fun as w₁ e w₂ hle hsees => ?_
  obtain ⟨⟨t', a⟩, -, hstep, rfl⟩ := hsees
  obtain ⟨hothers, hself⟩ := left_step hstep
  simp only [allowance, List.countP_append, List.countP_singleton, List.map_append,
    List.map_cons, List.map_nil, List.sum_append, List.sum_singleton] at hle ⊢
  by_cases ht : t' = t
  · subst ht
    cases hres : a.resumes with
    | true =>
        simp only [hres, if_true, and_self, decide_true] at hself ⊢
        omega
    | false =>
        simp only [hres, Bool.false_eq_true, if_false, and_false, decide_false, if_true] at hself ⊢
        omega
  · rw [hothers t fun heq => ht heq.symm]
    simp only [ht, false_and, decide_false, if_false, Bool.false_eq_true]
    omega

end Left

/-- The allocation of `carveRun` has taken two more steps, of six. -/
theorem resumes_le_allowance_carveRun :
    carveRun.countP (fun a => a.1 = 1 ∧ a.2.resumes) = 2 ∧
      carveRun.countP (fun a => a.1 = 1 ∧ a.2.resumes) ≤ allowance MmapManager.oneCore 1 carveRun :=
  ⟨rfl, resumes_le_allowance MmapManager.oneCore MmapManager.oneCoreBase (fun _ => 0)
    _ _ carveRun carveRun_path 1⟩

/-! ### Somebody can go on -/

/-- The thread is in a call. -/
def World.Busy (w : World) (t : Nat) : Prop := (w.threads t).stack ≠ []

/-- The thread can go on with its call, whatever an `mmap` in it returns. -/
def World.CanGoOn (c : Config) (w : World) (t : Nat) : Prop :=
  ∀ ret, ∃ w', w.step c t (.resume ret) = .next w'

section Progress

variable {c : Config} {base : Nat → Nat} {main : Bool} {s : Shared} {th : Thread} {r : Request}
  {q : QueueId → List Nat} {f : Frame} {w : World} {t p ret : Nat} {a : Action} {m : Mutex}

/-- The table keeps the count of the carving loop in range. -/
theorem serve_returns (hc : Setting c) : ∃ s' th', serve c s th r p = .next s' th' := by
  have hn : r.n c < 2 ^ 32 := by
    have hlt := (hc.fits.batch_eq (sizeClass r.size)).2
    unfold Request.n
    omega
  have hsome : carve c s.heap.store.mem (r.lm c).core r.size (r.n c) p ≠ none := fun hnone =>
    absurd (carve_eq_none_iff.mp hnone) (by omega)
  obtain ⟨result, hresult⟩ := Option.ne_none_iff_exists'.mp hsome
  unfold serve Process.carveInto
  rw [hresult]
  exact ⟨_, _, rfl⟩

/-- **A function goes on** if first touch, where it is due, comes to its end. -/
theorem resume_returns (th : Thread) (hc : Setting c) (h : HeapInv c s.heap q) (hf : FrameOk c main s f)
    (hsized : Untouched c s.heap.mm)
    (hsmall : ∀ a < c.threadN, MmapManager.initSize c a < 2 ^ 32) (ret : Nat) :
    ∃ s' th', resume c main s th ret f = .next s' th' := by
  cases f with
  | pool r =>
      unfold resume
      dsimp only
      split <;> exact ⟨_, _, rfl⟩
  | allocate r =>
      have harena : r.arena c main < c.threadN := RequestOk.arena_lt hf
      obtain ⟨touch, htouch⟩ : ∃ touch, MmapManager.touchOnce c main s.heap.mm
          (r.arena c main) = some touch := (h.touchOnce_returns_iff hf.manager hsized).mpr (by
        cases hflag : s.heap.mm.firstTouchFlag (r.arena c main) with
        | true => exact Or.inl hflag
        | false =>
            refine Or.inr ?_
            rw [show c.arena main (managerPools c r.manager).core = r.arena c main from rfl,
              hsized _ harena hflag]
            exact hsmall _ harena)
      have henter : ∃ e, s.heap.mm.enter c main (r.lm c).core (r.mmapSize c) ret = some e :=
        ⟨_, Option.map_eq_some_iff.mpr ⟨touch, htouch, rfl⟩⟩
      obtain ⟨⟨served, mm, touched⟩, henter⟩ := henter
      unfold resume
      dsimp only
      rw [henter]
      cases served with
      | some p => exact serve_returns hc
      | none => exact ⟨_, _, rfl⟩
  | printing r phase =>
      cases phase with
      | extended | reporting => exact ⟨_, _, rfl⟩
      | reported =>
          unfold resume
          dsimp only
          split
          · exact ⟨_, _, rfl⟩
          · exact serve_returns hc
      | exhausted => exact serve_returns hc
  | freeing j ptr | release j | flush j i => exact ⟨_, _, rfl⟩

/-- A step whose mutex is free and whose function comes to the next mutex is made. -/
theorem World.step_of_act {s' : Shared} {th' : Thread} (hready : (w.threads t).ready a = true)
    (hfree : ∀ m, locks c (mainThread t) w.shared (w.threads t) a = some m → w.owner m = none)
    (hact : act c (mainThread t) w.shared (w.threads t) a = .next s' th') :
    w.step c t a = .next (w.commit c t s' th') := by
  have hgo : w.go c t a = .next (w.commit c t s' th') := by
    unfold World.go
    rw [hact]
  unfold World.step
  rw [if_neg (by simp [hready])]
  split
  · exact hgo
  case h_2 m hm =>
    rw [hfree m hm]
    exact hgo

/-- What the steps of a run keep, as far as going on is concerned. -/
structure Lively (c : Config) (w : World) : Prop where
  inv : OwnershipInv c w
  sized : Untouched c w.shared.heap.mm
  nested : NoNestedAllocate w

theorem World.Busy.ready (h : w.Busy t) (ret : Nat) : (w.threads t).ready (.resume ret) = true :=
  decide_eq_true h

/-- **A busy thread goes on**, or it waits for a mutex that somebody has. -/
theorem Lively.canGoOn (h : Lively c w) (hc : Setting c)
    (hsmall : ∀ a < c.threadN, MmapManager.initSize c a < 2 ^ 32) (hbusy : w.Busy t) :
    w.CanGoOn c t ∨ ∃ ret m t', w.owner m = some t' ∧
      locks c (mainThread t) w.shared (w.threads t) (.resume ret) = some m := by
  refine or_iff_not_imp_right.mpr fun hfree ret => ?_
  obtain ⟨f, rest, hstack⟩ := List.exists_cons_of_ne_nil hbusy
  obtain ⟨q, hq⟩ := h.inv.owned
  obtain ⟨s', th', hresume⟩ := resume_returns { w.threads t with stack := rest } hc hq.heap
    (h.inv.frames t f (by simp [hstack])) h.sized hsmall ret
  have hact : act c (mainThread t) w.shared (w.threads t) (.resume ret) = .next s' th' := by
    rw [act, hstack]
    exact hresume
  refine ⟨_, World.step_of_act (hbusy.ready ret) (fun m hm => ?_) hact⟩
  cases howner : w.owner m with
  | none => rfl
  | some t' => exact absurd ⟨ret, m, t', howner, hm⟩ hfree

/-- **The owner of a mutex** can go on, or waits for a mutex of higher rank. -/
theorem Lively.owner_goes (h : Lively c w) (hc : Setting c)
    (hsmall : ∀ a < c.threadN, MmapManager.initSize c a < 2 ^ 32) (howner : w.owner m = some t) :
    ∃ t', w.Busy t' ∧ w.CanGoOn c t' := by
  -- the ranks of the mutexes waited for go up, and there are four
  induction hrank : 4 - m.rank using Nat.strong_induction_on generalizing m t with
  | _ n ih =>
      have hheld := (h.inv.locking.owners m t).mp howner
      have hbusy : w.Busy t := by
        intro hidle
        rw [Thread.held, hidle] at hheld
        exact absurd hheld (by simp)
      obtain hgo | ⟨ret, m', t', howner', hlocks⟩ := h.canGoOn hc hsmall hbusy
      · exact ⟨t, hbusy, hgo⟩
      · have hlt : m.rank < m'.rank := rank_lt_of_nests h.inv.locking h.nested
          ⟨t, .resume ret, hbusy.ready ret, howner, hlocks⟩
        have hle : m'.rank ≤ 3 := by cases m' <;> simp [Mutex.rank]
        exact ih _ (by omega) howner' rfl

/-- **No deadlock**: in every state of every run, if some thread is in a call, then some thread
can go on with its call, whatever its `mmap` returns, as long as no arena has `2 ^ 32` bytes or
more at the start, and the `malloc` of a `printf` does not get to an empty pool. -/
theorem progress (c : Config) (base : Nat → Nat) (w : World) (hc : Setting c)
    (hbase : c.FreshBase base) (hsmall : ∀ a < c.threadN, MmapManager.initSize c a < 2 ^ 32)
    (hrun : (system c base).Run (fun w a => Legal c w a ∧ Refilled c w a) w) (t : Nat)
    (hbusy : w.Busy t) : ∃ t', w.Busy t' ∧ w.CanGoOn c t' := by
  obtain ⟨hinv, hsized⟩ := untouched_run hc hbase (hrun.mono fun _ _ h => h.1)
  have h : Lively c w := ⟨hinv, hsized, NoNestedAllocate.run (hrun.mono fun _ _ h => h.2)⟩
  obtain hgo | ⟨-, m, t', howner, -⟩ := h.canGoOn hc hsmall hbusy
  · exact ⟨t, hbusy, hgo⟩
  · exact h.owner_goes hc hsmall howner

end Progress

/-- `carveRun` before its last step, in which thread 1 goes to the arena. -/
def arenaRun : List (Nat × Action) := carveRun.take 3

theorem arenaRun_made : ((World.init MmapManager.oneCore MmapManager.oneCoreBase fun _ => 0).run
    MmapManager.oneCore (fun w a => allocates MmapManager.oneCore 1 w a &&
      decide ((w.threads a.1).stack.length ≤ 1)) arenaRun).isSome = true := by
  decide +kernel

/-- There thread 1 is in a call, so somebody can go on. -/
theorem progress_arenaRun : ∃ w : World, w.Busy 1 ∧
    ∃ t', w.Busy t' ∧ w.CanGoOn MmapManager.oneCore t' := by
  let w := Option.get _ arenaRun_made
  have hrun : (system MmapManager.oneCore MmapManager.oneCoreBase).Run
      (fun w a => Legal MmapManager.oneCore w a ∧ Refilled MmapManager.oneCore w a) w := by
    refine World.run_sound _ (fun w a h => ?_) (.start ⟨_, rfl⟩) (Option.some_get arenaRun_made).symm
    obtain ⟨hallocates, hlength⟩ := Bool.and_eq_true_iff.mp h
    exact ⟨(Alone.of_allocates hallocates).1, Refilled.of_length (of_decide_eq_true hlength)⟩
  have hbusy : w.Busy 1 := by
    have hlength : (w.threads 1).stack.length = 1 := by decide +kernel
    intro hidle
    rw [hidle] at hlength
    exact absurd hlength (by decide)
  exact ⟨w, hbusy, progress MmapManager.oneCore MmapManager.oneCoreBase w oneCore_setting (by decide)
    (by decide) hrun 1 hbusy⟩

end FCMalloc.Machine
