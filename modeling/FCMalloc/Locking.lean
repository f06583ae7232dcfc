import FCMalloc.MachineSteps
import Mathlib.Logic.Relation

/-!
# FCMalloc.Locking

Which mutexes a thread can hold, and what it locks while it holds them.

`LockInv` holds in every run: a thread nests at most one call of `malloc` inside a
report of `MmapManager::Malloc`, all its calls use the manager it has leased, and the
mutexes it owns are those of its frames. A thread therefore holds at most
`mtxs_[arena]` and `debugMtx_`, both of one report.

A `malloc` that `printf` makes meanwhile locks `mtxsPerCore_[core_]`, which is harmless,
and then, if it finds no block, `mtxs_[arena]` again (`relock_of_pool_null`). Runs in
which it always finds one (`Refilled`) never lock twice, and their mutexes nest along
`Mutex.rank`.
-/

namespace FCMalloc.Machine

open GlobalMemoryManager

/-- The call of `Malloc` a frame belongs to. -/
def Frame.request : Frame → Option Request
  | .pool r | .allocate r | .printing r _ => some r
  | _ => none

/-- Calls nest only as a `malloc` inside a report. -/
def Shape : List Frame → Prop
  | [] | [_] => True
  | [.pool _, .printing _ _] | [.allocate _, .printing _ _] => True
  | _ => False

/-- The locking invariant. -/
structure LockInv (c : Config) (w : World) : Prop where
  shape : ∀ t, Shape (w.threads t).stack
  requests : ∀ t, ∀ f ∈ (w.threads t).stack, ∀ r, f.request = some r →
    (w.threads t).lp = some r.manager ∧ r.size ≠ 0
  owners : ∀ m t, w.owner m = some t ↔ m ∈ (w.threads t).held c (mainThread t)

section Frames

variable {c : Config} {main : Bool} {s : Shared} {th : Thread} {a : Action} {f f' : Frame}
  {rest : List Frame} {m : Mutex} {r : Request}

theorem Shape.tail (h : Shape (f :: rest)) : Shape rest := by
  cases rest with
  | nil => trivial
  | cons g rest =>
      cases rest with
      | nil => trivial
      | cons g' rest => cases f <;> exact absurd h (by simp [Shape])

theorem Starts.holds (h : Starts th a f) : f.holds c main = [] := by
  cases h <;> rfl

/-- A frame that follows holds at most what was held and what was locked on the way. -/
theorem Follows.holds (h : Follows c main s f f') (hm : m ∈ f'.holds c main) :
    m ∈ f.holds c main ∨ f.locks c main s = some m := by
  cases h with
  | allocate => exact absurd hm List.not_mem_nil
  | extended => exact Or.inr (congrArg some (List.mem_singleton.mp hm).symm)
  | reporting =>
      rcases List.mem_cons.mp hm with rfl | hm
      · exact Or.inr rfl
      · exact Or.inl hm
  | reported => exact Or.inl (List.mem_cons_of_mem _ hm)
  | exhausted hrest =>
      rcases List.mem_cons.mp hm with rfl | hm
      · exact Or.inr (if_pos hrest)
      · exact Or.inl hm
  | release => exact absurd hm List.not_mem_nil
  | flush => exact absurd hm List.not_mem_nil

theorem Follows.request (h : Follows c main s f f') (hr : f'.request = some r) :
    f.request = some r := by
  cases h <;> exact hr

theorem Starts.request (h : Starts th a f) (hr : f.request = some r) :
    th.lp = some r.manager ∧ r.size ≠ 0 := by
  cases h with
  | malloc hlp hsize | calloc hlp hsize | realloc hlp hsize =>
      obtain rfl := Option.some.inj hr
      exact ⟨hlp, hsize⟩
  | lateFree | free | allFree => exact absurd hr (by simp [Frame.request])

/-- A thread in a `printf` only prints, and a thread that prints has `mtxs_[arena]`. -/
theorem prints_stack (hshape : Shape th.stack) (h : th.prints = true) :
    ∃ r phase, th.stack = [.printing r phase] := by
  unfold Thread.prints at h
  split at h
  case h_1 r phase rest hstack =>
    rw [hstack] at hshape
    cases rest with
    | nil => exact ⟨r, phase, hstack⟩
    | cons g rest => cases rest <;> exact absurd hshape (by simp [Shape])
  · exact absurd h (by simp)

/-- What a thread that may start a call is doing. -/
theorem ready_starts (hshape : Shape th.stack) (hready : th.ready a = true) (h : Starts th a f) :
    th.stack = [] ∨ ∃ r r' phase, f = .pool r ∧ th.stack = [.printing r' phase] := by
  cases h with
  | malloc hlp hsize =>
      simp only [Thread.ready, Bool.and_eq_true, Bool.or_eq_true, decide_eq_true_eq] at hready
      rcases hready.2 with hnil | hprints
      · exact Or.inl hnil
      · obtain ⟨r', phase, hstack⟩ := prints_stack hshape hprints
        exact Or.inr ⟨_, r', phase, rfl, hstack⟩
  | calloc _ _ | realloc _ _ | lateFree | free _ | allFree _ =>
      simp only [Thread.ready, Bool.and_eq_true, decide_eq_true_eq] at hready
      exact Or.inl hready.2

end Frames

/-! ### The invariant -/

section Invariant

variable {c : Config} {base : Nat → Nat} {w w' : World} {t : Nat} {a : Action} {m : Mutex}
  {s : Shared} {th : Thread}

theorem LockInv.start (mem : ByteMemory.Memory) : LockInv c (World.init c base mem) where
  shape _ := trivial
  requests _ _ hf := absurd hf List.not_mem_nil
  owners m t := by simp [World.init, Thread.held, Thread.blank]

/-- **What a thread holds after a step** it held before or locked in the step. -/
theorem act_held (h : act c (mainThread t) w.shared (w.threads t) a = .next s th)
    (hm : m ∈ th.held c (mainThread t)) :
    m ∈ (w.threads t).held c (mainThread t) ∨
      locks c (mainThread t) w.shared (w.threads t) a = some m := by
  unfold Thread.held at *
  obtain ⟨hstack, -⟩ | ⟨f, hstack, -, hstarts⟩ | ⟨ret, f, rest, rfl, hold, -, hnew⟩ := act_stack h
  · rw [hstack] at hm
    exact Or.inl hm
  · rw [hstack, List.flatMap_cons, hstarts.holds, List.nil_append] at hm
    exact Or.inl hm
  · rw [hold, List.flatMap_cons]
    rcases hnew with hstack | ⟨f', hstack, hfollows⟩
    · rw [hstack] at hm
      exact Or.inl (List.mem_append_right _ hm)
    · rw [hstack, List.flatMap_cons] at hm
      rcases List.mem_append.mp hm with hm | hm
      · refine (hfollows.holds hm).imp (List.mem_append_left _) fun hlocks => ?_
        simpa only [locks, hold] using hlocks
      · exact Or.inl (List.mem_append_right _ hm)

/-- A report under way makes its arena's mutex unavailable to its own thread. -/
theorem LockInv.arena_taken (h : LockInv c w) {r r' : Request} {phase : Phase}
    (hstack : (w.threads t).stack = [.allocate r, .printing r' phase]) :
    w.owner (.mtxs (r.arena c (mainThread t))) = some t := by
  have hr := (h.requests t _ (by rw [hstack]; exact List.mem_cons_self) r rfl).1
  have hr' := (h.requests t (.printing r' phase) (by simp [hstack]) r' rfl).1
  have hmanager : r.manager = r'.manager := Option.some.inj (hr.symm.trans hr')
  have harena : r.arena c (mainThread t) = r'.arena c (mainThread t) := by
    rw [Request.arena, Request.arena, Request.lm, Request.lm, hmanager]
  rw [h.owners, Thread.held, hstack, harena]
  cases phase <;> simp [Frame.holds]

/-- The stack keeps its shape: a nested `malloc` cannot get past its arena's mutex. -/
theorem LockInv.shape_step (h : LockInv c w) (hready : (w.threads t).ready a = true)
    (hfree : ∀ m, locks c (mainThread t) w.shared (w.threads t) a = some m → w.owner m = none)
    (hact : act c (mainThread t) w.shared (w.threads t) a = .next s th) : Shape th.stack := by
  have hshape := h.shape t
  obtain ⟨hstack, -⟩ | ⟨f, hstack, -, hstarts⟩ | ⟨ret, f, rest, rfl, hold, -, hnew⟩ :=
    act_stack hact
  · rwa [hstack]
  · rw [hstack]
    rcases ready_starts hshape hready hstarts with hnil | ⟨r, r', phase, rfl, hprinting⟩
    · rw [hnil]
      trivial
    · rw [hprinting]
      trivial
  · rw [hold] at hshape
    rcases hnew with hstack | ⟨f', hstack, hfollows⟩
    · rw [hstack]
      exact hshape.tail
    · rw [hstack]
      cases rest with
      | nil => trivial
      | cons g rest =>
          have hnested : rest = [] ∧ (∃ r phase, g = .printing r phase) ∧
              ((∃ r, f = .pool r) ∨ ∃ r, f = .allocate r) := by
            cases rest <;> cases f <;> cases g <;> simp [Shape] at hshape ⊢
          obtain ⟨rfl, ⟨r', phase, rfl⟩, ⟨r, rfl⟩ | ⟨r, rfl⟩⟩ := hnested
          · cases hfollows
            trivial
          · have htaken := h.arena_taken hold
            have havail := hfree (.mtxs (r.arena c (mainThread t))) (by
              simp only [locks, hold, Frame.locks])
            rw [htaken] at havail
            exact absurd havail (by simp)

/-- A thread's requests are on the manager it has leased. -/
theorem LockInv.requests_step (h : LockInv c w) (hready : (w.threads t).ready a = true)
    (hact : act c (mainThread t) w.shared (w.threads t) a = .next s th) :
    ∀ f ∈ th.stack, ∀ r, f.request = some r → th.lp = some r.manager ∧ r.size ≠ 0 := by
  intro f hf r hr
  obtain hk | ⟨-, -, hempty⟩ := act_lease_cases hready hact
  case inr => exact absurd (hempty ▸ hf) List.not_mem_nil
  rw [hk.lp]
  obtain ⟨hstack, -⟩ | ⟨g, hstack, -, hstarts⟩ | ⟨ret, g, rest, rfl, hold, -, hnew⟩ :=
    act_stack hact
  · exact h.requests t f (hstack ▸ hf) r hr
  · rw [hstack] at hf
    rcases List.mem_cons.mp hf with rfl | hf
    · exact hstarts.request hr
    · exact h.requests t f hf r hr
  · have hbelow : f ∈ rest → f ∈ (w.threads t).stack := fun hf => by
      rw [hold]
      exact List.mem_cons_of_mem g hf
    rcases hnew with hstack | ⟨g', hstack, hfollows⟩
    · exact h.requests t f (hbelow (hstack ▸ hf)) r hr
    · rw [hstack] at hf
      rcases List.mem_cons.mp hf with rfl | hf
      · exact h.requests t g (by rw [hold]; exact List.mem_cons_self) r (hfollows.request hr)
      · exact h.requests t f (hbelow hf) r hr

/-- The owners of the mutexes are the threads that hold them. -/
theorem LockInv.owners_step (h : LockInv c w)
    (hfree : ∀ m, locks c (mainThread t) w.shared (w.threads t) a = some m → w.owner m = none)
    (hact : act c (mainThread t) w.shared (w.threads t) a = .next s th) (m : Mutex) (t' : Nat) :
    (w.commit c t s th).owner m = some t' ↔
      m ∈ ((w.commit c t s th).threads t').held c (mainThread t') := by
  -- a mutex the thread holds now was its own before, or free
  have hfresh : m ∈ th.held c (mainThread t) → ∀ t', w.owner m = some t' → t' = t := by
    intro hm t' howner
    rcases act_held hact hm with hold | hlocks
    · rw [← h.owners, howner] at hold
      exact Option.some.inj hold
    · rw [hfree m hlocks] at howner
      exact absurd howner (by simp)
  rw [World.commit_threads]
  by_cases ht : t' = t
  · subst ht
    rw [Function.update_self]
    simp only [World.commit]
    split
    case isTrue hm => simp [hm]
    case isFalse hm =>
      split
      case isTrue => simp [hm]
      case isFalse howner => simp [hm, howner]
  · rw [Function.update_of_ne ht, ← h.owners]
    simp only [World.commit]
    split
    case isTrue hm =>
      constructor
      · intro heq
        exact absurd (Option.some.inj heq).symm ht
      · intro howner
        exact absurd (hfresh hm t' howner) ht
    case isFalse =>
      split
      case isTrue howner =>
        rw [howner]
        constructor
        · intro heq
          exact absurd heq (by simp)
        · intro heq
          exact absurd (Option.some.inj heq).symm ht
      case isFalse => exact Iff.rfl

/-- **Every step** keeps the locking invariant. -/
theorem LockInv.step (h : LockInv c w) (hstep : w.step c t a = .next w') : LockInv c w' := by
  obtain ⟨hready, hfree, s, th, hact, rfl⟩ := World.step_next hstep
  constructor
  case shape =>
    exact World.forall_commit (P := fun _ th => Shape th.stack) h.shape
      (h.shape_step hready hfree hact)
  case requests =>
    exact World.forall_commit (P := fun _ th => ∀ f ∈ th.stack, ∀ r, f.request = some r →
      th.lp = some r.manager ∧ r.size ≠ 0) h.requests (h.requests_step hready hact)
  case owners => exact h.owners_step hfree hact

theorem LockInv.run {ok : World → Nat × Action → Prop} (h : (system c base).Run ok w) :
    LockInv c w := by
  refine h.invariant ?_ fun _ _ _ hinv _ hstep => hinv.step hstep
  rintro _ ⟨mem, rfl⟩
  exact LockInv.start mem

/-- No thread holds `mtx_` between two steps. -/
theorem LockInv.mtx_free (h : LockInv c w) : w.owner .mtx = none := by
  cases howner : w.owner .mtx with
  | none => rfl
  | some t =>
      obtain ⟨f, -, hf⟩ := List.mem_flatMap.mp ((h.owners _ t).mp howner)
      cases f with
      | printing r phase => cases phase <;> simp [Frame.holds] at hf
      | pool | allocate | freeing | release | flush => exact absurd hf List.not_mem_nil

end Invariant

end FCMalloc.Machine
