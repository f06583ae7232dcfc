import FCMalloc.Locking
import FCMalloc.OwnershipSteps

/-!
# FCMalloc.OwnershipRuns

The ownership invariant in every state of every run, for any number of threads.

A step of one thread must leave valid what the others have stopped in the middle of.
Two facts make it so. The pointers under way in `realloc` and in `GlobalMemoryManager::Free`
are all different (`OwnershipInv.pending`), because a program gives a pointer up once. And
an arena with a report under way is worked on by no one else, because its mutex is held
(`arena_apart`).
-/

namespace FCMalloc.Machine

open ByteMemory GlobalMemoryManager

/-- The pointer the program gives up in an action. -/
def Action.freed : Action → Option Nat
  | .realloc ptr _ | .free ptr => some ptr
  | _ => none

/-- **A step the program and the system may make.** A pointer is given up once: it is live,
and under way in no call. -/
structure Legal [ClzZero] (c : Config) (w : World) (a : Nat × Action) : Prop where
  act : ActOk c (mainThread a.1) w.shared (w.threads a.1) a.2
  once : ∀ ptr, a.2.freed = some ptr → ∀ t, ∀ f ∈ (w.threads t).stack, f.pending ≠ some ptr

/-- The pointers under way in a thread's calls. -/
def Thread.pending (th : Thread) : List Nat := th.stack.filterMap Frame.pending

/-- **The invariant of the machine.** -/
structure OwnershipInv (c : Config) (w : World) : Prop where
  locking : LockInv c w
  owned : ∃ q, Owned c w.shared q
  leases : ∀ t j, (w.threads t).lp = some j → j < managerN c
  offset : -1 ≤ w.shared.heap.g.allocOffset
  frames : ∀ t, ∀ f ∈ (w.threads t).stack, FrameOk c (mainThread t) w.shared f
  pending : Separated fun t => (w.threads t).pending

section Apart

variable {c : Config} {w : World} {t t' : Nat} {a : Action} {f g : Frame} {rest : List Frame}
  {p x : Nat}

theorem Action.given_cases (th : Thread) (h : a.given th = some p) :
    a.freed = some p ∨ ∃ ret f rest, a = .resume ret ∧ th.stack = f :: rest ∧
      f.pending = some p := by
  cases a with
  | realloc ptr size | free ptr => exact Or.inl h
  | resume ret =>
      cases hstack : th.stack with
      | nil => exact absurd h (by simp [Action.given, hstack])
      | cons f rest => exact Or.inr ⟨ret, f, rest, rfl, rfl, by simpa [Action.given, hstack] using h⟩
  | start | exit | malloc | calloc | allFree | store => exact absurd h (by simp [Action.given])

theorem Thread.mem_pending {th : Thread} (hf : f ∈ th.stack) (hp : f.pending = some p) :
    p ∈ th.pending :=
  List.mem_filterMap.mpr ⟨f, hf, hp⟩

theorem Action.below_sublist (a : Action) (th : Thread) : (a.below th).Sublist th.stack := by
  cases a with
  | resume ret => exact List.tail_sublist _
  | start | exit | malloc | calloc | realloc | free | allFree | store => exact List.Sublist.refl _

/-- No frame left alone waits for the pointer an action gives up. -/
theorem OwnershipInv.given_apart (h : OwnershipInv c w) (hlegal : Legal c w (t, a))
    (hf : f ∈ (w.threads t').stack) (hout : t' ≠ t ∨ f ∈ a.below (w.threads t))
    (hp : f.pending = some p) : a.given (w.threads t) ≠ some p := by
  intro hgiven
  obtain hfreed | ⟨ret, g, rest, rfl, hstack, hg⟩ := Action.given_cases _ hgiven
  · exact hlegal.once p hfreed t' f hf hp
  · have hown : p ∈ (w.threads t).pending := Thread.mem_pending (by simp [hstack]) hg
    rcases hout with hne | hbelow
    · exact h.pending.disjoint t' t hne p (Thread.mem_pending hf hp) hown
    · have hnd := h.pending.nodup t
      simp only [Thread.pending, hstack, List.filterMap_cons, hg] at hnd
      simp only [Action.below, hstack, List.tail_cons] at hbelow
      exact (List.nodup_cons.mp hnd).1 (List.mem_filterMap.mpr ⟨f, hbelow, hp⟩)

/-- **An arena with a report under way** is worked on by its own thread only, and there by
the report only. -/
theorem LockInv.arena_apart (h : LockInv c w)
    (hfree : ∀ m, locks c (mainThread t) w.shared (w.threads t) a = some m → w.owner m = none)
    (hf : f ∈ (w.threads t').stack) (hout : t' ≠ t ∨ t' = t ∧ f ∈ a.below (w.threads t))
    (hx : .mtxs x ∈ f.holds c (mainThread t')) :
    a.arena c (mainThread t) (w.threads t) ≠ some x := by
  intro harena
  have howner : w.owner (.mtxs x) = some t' :=
    (h.owners _ t').mpr (List.mem_flatMap.mpr ⟨f, hf, hx⟩)
  cases a with
  | resume ret =>
      cases hstack : (w.threads t).stack with
      | nil => exact absurd harena (by simp [Action.arena, hstack])
      | cons g rest =>
          have hg : g.arena c (mainThread t) = some x := by
            simpa [Action.arena, hstack] using harena
          cases g with
          | allocate r =>
              obtain rfl := Option.some.inj hg
              have havail := hfree (.mtxs (r.arena c (mainThread t))) (by
                simp only [locks, hstack, Frame.locks])
              rw [howner] at havail
              exact absurd havail (by simp)
          | printing r phase =>
              obtain rfl := Option.some.inj hg
              have hmem : Mutex.mtxs (r.arena c (mainThread t)) ∈
                  (w.threads t).held c (mainThread t) := by
                rw [Thread.held, hstack]
                cases phase <;> simp [Frame.holds]
              have howner' := (h.owners _ t).mpr hmem
              rcases hout with hne | ⟨-, hbelow⟩
              · exact hne (Option.some.inj (howner.symm.trans howner'))
              · -- below a report there is nothing
                have hshape := h.shape t
                rw [hstack] at hshape
                simp only [Action.below, hstack, List.tail_cons] at hbelow
                cases rest with
                | nil => exact absurd hbelow List.not_mem_nil
                | cons g rest => cases rest <;> exact absurd hshape (by simp [Shape])
          | pool | freeing | release | flush => exact absurd hg (by simp [Frame.arena])
  | start | exit | malloc | calloc | realloc | free | allFree | store =>
      exact absurd harena (by simp [Action.arena])

end Apart

/-! ### Runs -/

section Runs

variable {c : Config} {base : Nat → Nat} {w w' : World} {t : Nat} {a : Action} {s : Shared}
  {th : Thread}

theorem OwnershipInv.start (hbase : c.FreshBase base) (mem : Memory) :
    OwnershipInv c (World.init c base mem) where
  locking := LockInv.start mem
  owned := ⟨_, HeapInv.start hbase, by simp [World.init, Process.init], by simp [World.init],
    List.nodup_nil, by simp [World.init]⟩
  leases _ _ hlp := absurd hlp (by simp [World.init, Thread.blank])
  offset := Int.le_refl _
  frames _ _ hf := absurd hf List.not_mem_nil
  pending := Separated.empty

/-- The pointers under way in a thread after its step: at most one new, given up just now. -/
theorem Legal.pending_step (hlegal : Legal c w (t, a))
    (hadvance : Advance c (mainThread t) w.shared s (a.below (w.threads t)) th
      (a.given (w.threads t)) (a.arena c (mainThread t) (w.threads t))) :
    th.pending.Sublist (w.threads t).pending ∨
      ∃ p, th.pending = p :: (w.threads t).pending ∧ ∀ t', p ∉ (w.threads t').pending := by
  have hbelow := a.below_sublist (w.threads t)
  unfold Thread.pending
  obtain hstack | ⟨f, hstack, -, hgives⟩ := hadvance.stack
  · rw [hstack]
    exact Or.inl (hbelow.filterMap _)
  · rw [hstack]
    cases hp : f.pending with
    | none =>
        rw [List.filterMap_cons_none hp]
        exact Or.inl (hbelow.filterMap _)
    | some p =>
        rw [List.filterMap_cons_some hp]
        obtain hfreed | ⟨ret, g, rest, rfl, hold, hg⟩ := Action.given_cases _ (hgives p hp)
        · refine Or.inr ⟨p, ?_, fun t' hin => ?_⟩
          · cases a with
            | realloc | free => rfl
            | resume | start | exit | malloc | calloc | allFree | store =>
                exact absurd hfreed (by simp [Action.freed])
          · obtain ⟨f', hf', hp'⟩ := List.mem_filterMap.mp hin
            exact hlegal.once p hfreed t' f' hf' hp'
        · refine Or.inl ?_
          rw [hold, List.filterMap_cons_some hg, Action.below, hold, List.tail_cons]

/-- **Every legal step** keeps the invariant, and blocks stay carved. -/
theorem OwnershipInv.step (hc : Setting c) (h : OwnershipInv c w) (hlegal : Legal c w (t, a))
    (hstep : w.step c t a = .next w') :
    OwnershipInv c w' ∧ w.shared.heap.carved <+: w'.shared.heap.carved := by
  have hlocking := h.locking.step hstep
  obtain ⟨-, hfree, s, th, hact, rfl⟩ := World.step_next hstep
  obtain ⟨q, hq⟩ := h.owned
  have hadvance := act_advance hc hq (h.leases t) h.offset (h.frames t) hlegal.act hact
  refine ⟨⟨hlocking, hadvance.owned, ?leases, act_allocOffset h.offset hact, ?frames, ?pending⟩,
    hadvance.kept.carved⟩
  case leases =>
    intro t' j hlp
    rw [World.commit_threads, Function.update_apply] at hlp
    split at hlp
    · exact act_lease (h.leases t) h.offset hlegal.act hact j hlp
    · exact h.leases t' j hlp
  case frames =>
    intro t' f hf
    have hmono : f ∈ (w.threads t').stack → (t' ≠ t ∨ t' = t ∧ f ∈ a.below (w.threads t)) →
        FrameOk c (mainThread t') s f := fun hf hout =>
      (h.frames t' f hf).mono hadvance.kept
        (fun p => h.given_apart hlegal hf (hout.imp id And.right))
        fun x => h.locking.arena_apart hfree hf hout
    rw [World.commit_threads] at hf
    by_cases ht : t' = t
    case neg =>
      rw [Function.update_of_ne ht] at hf
      exact hmono hf (Or.inl ht)
    subst ht
    rw [Function.update_self] at hf
    have hold : f ∈ a.below (w.threads t') → FrameOk c (mainThread t') s f := fun hbelow =>
      hmono ((a.below_sublist _).subset hbelow) (Or.inr ⟨rfl, hbelow⟩)
    obtain hstack | ⟨g, hstack, hok, -⟩ := hadvance.stack
    · exact hold (hstack ▸ hf)
    · rw [hstack] at hf
      rcases List.mem_cons.mp hf with rfl | hf
      · exact hok
      · exact hold hf
  case pending =>
    have hupdate : (fun t' => ((w.commit c t s th).threads t').pending) =
        Function.update (fun t' => (w.threads t').pending) t th.pending := by
      funext t'
      rw [World.commit_threads, Function.update_apply, Function.update_apply]
      split <;> rfl
    rw [hupdate]
    obtain hsub | ⟨p, hp, hfresh⟩ := hlegal.pending_step hadvance
    · exact h.pending.shrink hsub
    · rw [hp]
      refine h.pending.replace (List.nodup_cons.mpr ⟨hfresh t, h.pending.nodup t⟩) ?_
      intro x hx t' ht
      rcases List.mem_cons.mp hx with rfl | hx
      · exact hfresh t'
      · exact h.pending.disjoint t t' (Ne.symm ht) x hx

/-- **Every state of every run.** -/
theorem OwnershipInv.run (hc : Setting c) (hbase : c.FreshBase base)
    (hrun : (system c base).Run (Legal c) w) : OwnershipInv c w := by
  refine hrun.invariant ?_ fun _ _ _ hinv hlegal hstep => (hinv.step hc hlegal hstep).1
  rintro _ ⟨mem, rfl⟩
  exact OwnershipInv.start hbase mem

end Runs

/-! ### A run -/

/-- Thread `t` is the only one that takes steps, and does not exit. -/
def Alone (c : Config) (t : Nat) (w : World) (a : Nat × Action) : Prop :=
  Legal c w a ∧ a.1 = t ∧ a.2 ≠ .exit

/-- A test for steps of thread `t` that start it or allocate, where a mapping is fresh. -/
def allocates (c : Config) (t : Nat) (w : World) (a : Nat × Action) : Bool :=
  a.1 = t && match a.2 with
  | .start core => core < c.coreN
  | .malloc size => size < 2 ^ 64
  | .resume ret =>
      match (w.threads a.1).stack with
      | .allocate r :: _ =>
          !w.shared.heap.mm.needsExtension c (r.arena c (mainThread a.1)) (r.mmapSize c) ||
            c.Fresh w.shared.heap.mm.maps ret
              (align (MmapManager.allocSize (r.mmapSize c)) c.pageSize)
      | _ => true
  | _ => false

theorem Alone.of_allocates {c : Config} {w : World} {t : Nat} {a : Nat × Action}
    (h : allocates c t w a = true) : Alone c t w a := by
  obtain ⟨t', a⟩ := a
  simp only [allocates, Bool.and_eq_true, decide_eq_true_eq] at h
  obtain ⟨rfl, h⟩ := h
  cases a with
  | start core =>
      have hcore : core < c.coreN := of_decide_eq_true h
      exact ⟨⟨hcore, by simp [Action.freed]⟩, rfl, by simp⟩
  | malloc size =>
      have hsize : size < 2 ^ 64 := of_decide_eq_true h
      exact ⟨⟨hsize, by simp [Action.freed]⟩, rfl, by simp⟩
  | resume ret =>
      refine ⟨⟨fun r hr hext => ?_, by simp [Action.freed]⟩, rfl, by simp⟩
      obtain ⟨rest, hstack⟩ := List.head?_eq_some_iff.mp hr
      simp only [hstack, hext, Bool.not_true, Bool.false_or, decide_eq_true_eq] at h
      exact h
  | exit | calloc | realloc | free | allFree | store => exact absurd h (by simp)

/-- Thread 1 starts on core 0 and allocates 64 KB, of which the default table carves two. -/
def carveRun : List (Nat × Action) :=
  [(1, .start 0), (1, .malloc 65536), (1, .resume 0), (1, .resume 0)]

theorem carveRun_made : ((World.init MmapManager.oneCore MmapManager.oneCoreBase fun _ => 0).run
    MmapManager.oneCore (allocates MmapManager.oneCore 1) carveRun).isSome = true := by
  decide +kernel

theorem carveRun_alone : (system MmapManager.oneCore MmapManager.oneCoreBase).Run
    (Alone MmapManager.oneCore 1) (Option.get _ carveRun_made) :=
  World.run_sound _ (fun _ _ => Alone.of_allocates) (.start ⟨_, rfl⟩)
    (Option.some_get carveRun_made).symm

theorem carveRun_legal : (system MmapManager.oneCore MmapManager.oneCoreBase).Run
    (Legal MmapManager.oneCore) (Option.get _ carveRun_made) :=
  carveRun_alone.mono fun _ _ h => h.1

/-- `carveRun` action by action. -/
theorem carveRun_path : Traced
    ((system MmapManager.oneCore MmapManager.oneCoreBase).Sees (Legal MmapManager.oneCore)
      fun _ a _ => a)
    (World.init MmapManager.oneCore MmapManager.oneCoreBase fun _ => 0) carveRun
    (Option.get _ carveRun_made) := by
  have hpath := World.run_traced MmapManager.oneCoreBase (Legal MmapManager.oneCore)
    (fun _ a _ => a) (fun _ _ h => (Alone.of_allocates h).1) .nil
    (Option.some_get carveRun_made).symm
  rwa [World.trace_actions (Option.some_get carveRun_made).symm, List.nil_append] at hpath

theorem oneCore_setting : Setting MmapManager.oneCore := ⟨⟨by decide, by decide⟩, rfl⟩

/-! ### Two threads

Two cores with an arena of 1 MB for each thread. Thread 1 allocates on core 1, and the main
thread, on core 0, gives its blocks back. -/

theorem two_cores : 0 < 2 ∧ 2 < 2 ^ 31 := by decide

def twoCores : Config :=
  mainInit 2 4096 4 .setDefault none (some 1) (some 2) two_cores MmapManager.four_slots
    MmapManager.page_4096

theorem twoCores_setting : Setting twoCores := ⟨⟨by decide, by decide⟩, rfl⟩

/-- Threads 0 and 1 take legal steps, the others none. -/
def Pair (c : Config) (w : World) (a : Nat × Action) : Prop :=
  a.1 < 2 ∧ ((∀ t, 2 ≤ t → (w.threads t).stack = []) → Legal c w a)

/-- A test for steps of threads 0 and 1 that start them, allocate, or give up a live pointer while
neither is in a call. -/
def trades (c : Config) (w : World) (a : Nat × Action) : Bool :=
  a.1 < 2 && match a.2 with
  | .realloc ptr size => size < 2 ^ 64 && w.shared.live.contains ptr &&
      (w.threads 0).stack = [] && (w.threads 1).stack = []
  | .free ptr => w.shared.live.contains ptr && (w.threads 0).stack = [] && (w.threads 1).stack = []
  | _ => allocates c a.1 w a

section Pair

variable {c : Config} {base : Nat → Nat} {w : World} {a : Nat × Action}
  {ok : World → Nat × Action → Prop}

/-- Where no thread is in a call, no pointer is under way. -/
theorem Pair.of_trades (h : trades c w a = true) : Pair c w a := by
  obtain ⟨t, a⟩ := a
  simp only [trades, Bool.and_eq_true, decide_eq_true_eq] at h
  obtain ⟨ht, h⟩ := h
  refine ⟨ht, fun hidle => ?_⟩
  have honce : (w.threads 0).stack = [] → (w.threads 1).stack = [] →
      ∀ ptr, a.freed = some ptr → ∀ t, ∀ f ∈ (w.threads t).stack, f.pending ≠ some ptr := by
    intro hmain hother ptr _ t f hf
    have hempty : (w.threads t).stack = [] := by
      match t with
      | 0 => exact hmain
      | 1 => exact hother
      | t + 2 => exact hidle _ (by omega)
    exact absurd (hempty ▸ hf) List.not_mem_nil
  cases a with
  | realloc ptr size =>
      simp only [Bool.and_eq_true, decide_eq_true_eq, List.contains_iff_mem] at h
      obtain ⟨⟨⟨hsize, hlive⟩, hmain⟩, hother⟩ := h
      exact ⟨⟨hsize, fun _ => hlive⟩, honce hmain hother⟩
  | free ptr =>
      simp only [Bool.and_eq_true, decide_eq_true_eq, List.contains_iff_mem] at h
      obtain ⟨⟨hlive, hmain⟩, hother⟩ := h
      exact ⟨fun _ => hlive, honce hmain hother⟩
  | start | exit | malloc | calloc | allFree | store | resume => exact (Alone.of_allocates h).1

/-- **Runs of two threads** are legal. -/
theorem Pair.run (h : (system c base).Run (fun w a => Pair c w a ∧ ok w a) w) :
    (system c base).Run (fun w a => Legal c w a ∧ ok w a) w := by
  refine (h.strengthen (motive := fun w => ∀ t, 2 ≤ t → (w.threads t).stack = []) ?_ ?_ ?_).2
  · rintro _ ⟨mem, rfl⟩ t ht
    rfl
  · intro w a w' hidle hok hstep t ht
    obtain ⟨-, -, s, th, -, rfl⟩ := World.step_next hstep
    rw [World.commit_threads, Function.update_of_ne (by have := hok.1.1; omega)]
    exact hidle t ht
  · exact fun w a hidle hok => ⟨hok.1.2 hidle, hok.2⟩

end Pair

/-- Both threads start, and thread 1 allocates 128 KB twice, which makes two blocks. -/
def pairRun : List (Nat × Action) :=
  [(0, .start 0), (1, .start 1), (1, .malloc 131072), (1, .resume 0), (1, .resume 0),
    (1, .malloc 131072), (1, .resume 0), (1, .resume 0)]

/-- The main thread frees one of the blocks. -/
def countedRun : List (Nat × Action) := pairRun ++ [(0, .free 140737488355376)]

theorem countedRun_trades : ((World.init twoCores MmapManager.oneCoreBase fun _ => 0).run twoCores
    (trades twoCores) countedRun).isSome = true := by
  decide +kernel

theorem countedRun_legal : (system twoCores MmapManager.oneCoreBase).Run (Legal twoCores)
    (Option.get _ countedRun_trades) := by
  have hpair : (system twoCores MmapManager.oneCoreBase).Run (fun w a => Pair twoCores w a ∧ True)
      (Option.get _ countedRun_trades) :=
    World.run_sound _ (fun _ _ h => ⟨Pair.of_trades h, trivial⟩) (.start ⟨_, rfl⟩)
      (Option.some_get countedRun_trades).symm
  exact (Pair.run hpair).mono fun _ _ h => h.1

end FCMalloc.Machine
