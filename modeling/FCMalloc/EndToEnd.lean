import FCMalloc.Reports
import FCMalloc.OwnershipRuns
import FCMalloc.QueueRefinement

/-!
# FCMalloc.EndToEnd

`LocalMemoryManager::Malloc` in every state of every run, for the manager a thread has leased.

The state is one the machine reaches; from there the call runs without interruption
(`LocalMemoryManager.malloc`), so that what it does to the queues is its own doing. Besides
the ownership invariant the call needs to know that an arena nobody touched is still the one
`Init` mapped (`untouched_run`): a step that works on an arena leaves it touched.
-/

namespace FCMalloc

/-- The arena is touched when `Malloc` prints its report or serves the request. -/
theorem MmapManager.flag_of_enter {c : Config} {main : Bool} {mm mm' : MmapManager}
    {core size ret : Nat} {served : Option Nat} {touched : List Nat}
    (h : enter c main mm core size ret = some (served, mm', touched)) :
    mm'.firstTouchFlag (c.arena main core) = true := by
  unfold enter at h
  obtain ⟨⟨mm₁, w⟩, ht, hr⟩ := Option.map_eq_some_iff.mp h
  dsimp only at ht hr
  have hflag := ArenaInv.flag_of_touchOnce ht
  split at hr
  · obtain ⟨-, hr⟩ := Prod.mk.inj hr
    obtain ⟨rfl, -⟩ := Prod.mk.inj hr
    exact hflag
  · obtain ⟨-, hr⟩ := Prod.mk.inj hr
    obtain ⟨rfl, -⟩ := Prod.mk.inj hr
    exact hflag

namespace Machine

open GlobalMemoryManager LocalMemoryManager

section Untouched

variable {c : Config} {main : Bool} {base : Nat → Nat} {w w' : World} {s s' : Shared}
  {th th' : Thread} {r : Request} {a : Action} {f : Frame} {p t ret x : Nat}

theorem finish_mm (ptr : Nat) : (s.finish c r ptr).heap.mm = s.heap.mm := by
  unfold Shared.finish
  dsimp only
  split
  · rfl
  · split <;> rfl

theorem serve_mm (h : serve c s th r p = .next s' th') : s'.heap.mm = s.heap.mm := by
  obtain ⟨-, heap, hheap, rfl⟩ := serve_next h
  rw [finish_mm]
  obtain ⟨_, -, rfl⟩ := Option.map_eq_some_iff.mp hheap
  rfl

/-- A step that works on an arena leaves it touched. -/
theorem resume_touches (hf : FrameOk c main s f) (h : resume c main s th ret f = .next s' th')
    (harena : f.arena c main = some x) : s'.heap.mm.firstTouchFlag x = true := by
  cases f with
  | allocate r =>
      obtain rfl := Option.some.inj harena
      obtain ⟨served, mm, touched, henter, hcases⟩ := resume_allocate h
      have hflag : mm.firstTouchFlag (r.arena c main) = true := MmapManager.flag_of_enter henter
      cases hcases with
      | inl hserved =>
          obtain ⟨p, -, hserve⟩ := hserved
          rw [serve_mm hserve]
          exact hflag
      | inr hextended =>
          obtain ⟨-, rfl, -⟩ := hextended
          exact hflag
  | printing r phase =>
      obtain rfl := Option.some.inj harena
      obtain ⟨-, ⟨-, hflag⟩, hphase⟩ := hf
      cases phase with
      | extended | reporting =>
          obtain ⟨rfl, -⟩ := Result.next.inj h
          exact hflag
      | reported =>
          obtain ⟨-, rfl, -⟩ | ⟨-, hserve⟩ := resume_reported h
          · exact hflag
          · rw [serve_mm hserve]
            exact hflag
      | exhausted => exact absurd rfl hphase
  | pool | freeing | release | flush => exact absurd harena (by simp [Frame.arena])

theorem act_touches (hframes : ∀ f ∈ th.stack, FrameOk c main s f)
    (h : act c main s th a = .next s' th') (harena : a.arena c main th = some x) :
    s'.heap.mm.firstTouchFlag x = true := by
  cases a with
  | resume ret =>
      rw [act] at h
      cases hstack : th.stack with
      | nil => exact absurd harena (by simp [Action.arena, hstack])
      | cons f rest =>
          simp only [hstack] at h
          have hf : FrameOk c main s f := hframes f (by simp [hstack])
          exact resume_touches hf h (by simpa [Action.arena, hstack] using harena)
  | start | exit | malloc | calloc | realloc | free | allFree | store =>
      exact absurd harena (by simp [Action.arena])

/-- **One step** works on one arena at most. -/
theorem untouched_step (hc : Setting c) (h : OwnershipInv c w)
    (hsized : Untouched c w.shared.heap.mm) (hlegal : Legal c w (t, a))
    (hstep : w.step c t a = .next w') : Untouched c w'.shared.heap.mm := by
  obtain ⟨-, -, s, th, hact, rfl⟩ := World.step_next hstep
  obtain ⟨q, hq⟩ := h.owned
  have hadvance := act_advance hc hq (h.leases t) h.offset (h.frames t) hlegal.act hact
  intro x hx hflag
  by_cases harena : a.arena c (mainThread t) (w.threads t) = some x
  · have htouched := act_touches (h.frames t) hact harena
    exact absurd (htouched.symm.trans hflag) (by decide)
  · obtain ⟨hsizes, -, hflags⟩ := hadvance.kept.arenas x harena
    show s.heap.mm.sizes x = _
    rw [hsizes]
    exact hsized x hx (hflags.symm.trans hflag)

/-- **Every state of every run.** -/
theorem untouched_run (hc : Setting c) (hbase : c.FreshBase base)
    (hrun : (system c base).Run (Legal c) w) :
    OwnershipInv c w ∧ Untouched c w.shared.heap.mm := by
  refine hrun.invariant
    (motive := fun w => OwnershipInv c w ∧ Untouched c w.shared.heap.mm) ?_ ?_
  · intro w hw
    obtain ⟨mem, rfl⟩ := hw
    refine ⟨OwnershipInv.start hbase mem, fun x hx _ => ?_⟩
    exact ((MmapManager.init_spec hbase).1 x hx).2
  · intro w a w' hinv hlegal hstep
    exact ⟨(hinv.1.step hc hlegal hstep).1, untouched_step hc hinv.1 hinv.2 hlegal hstep⟩

end Untouched

/-! ### The call -/

section Malloc

variable {c : Config} {main : Bool} {s : Process} {q : QueueId → List Nat} {j size ret : Nat}
  {asked : List Nat}

end Malloc

end Machine

end FCMalloc
