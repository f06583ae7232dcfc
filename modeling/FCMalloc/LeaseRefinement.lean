import FCMalloc.Leasing
import FCMalloc.OwnershipRuns

/-!
# FCMalloc.LeaseRefinement

The machine leases its managers as `FCMalloc.Leasing` does.

A thread's leases can be read off its variables and its stack (`Thread.leases`): `lp` for its
own use, and the frames of `GlobalMemoryManager::Free`. `Leased c w x` says that `x` has
exactly the leases of the threads of `w`. Every step of the machine is one action of the leases
(`Leased.step`), `work` for all that neither lease nor take back, so that every world
has such an `x` with exclusive leases (`LeasesInv`): a manager is in one thread's hands.
-/

namespace FCMalloc.Machine

open GlobalMemoryManager Leasing

/-- The lease a call of `GlobalMemoryManager::Free` holds. -/
def Frame.lease? : Frame → Option (Nat × Purpose)
  | .freeing j ptr => some (j, .freeing ptr)
  | .release j => some (j, .freed)
  | _ => none

/-- The managers a thread has leased. -/
def Thread.leases (th : Thread) : List (Nat × Purpose) :=
  th.lp.toList.map (·, .own) ++ th.stack.filterMap Frame.lease?

/-- **`x` has the leases of the threads of `w`**, its flags and its lists. -/
structure Leased (w : World) (x : State) : Prop where
  g : x.g = w.shared.heap.g
  store : x.store = w.shared.heap.store
  leases : ∀ e, e ∈ x.leases ↔ (e.manager, e.purpose) ∈ (w.threads e.thread).leases

section Thread

variable {th th' : Thread} {j : Nat} {p : Purpose} {f f' : Frame} {rest : List Frame}
  {c : Config} {main : Bool} {s : Shared} {a : Action}

theorem Thread.mem_leases : (j, p) ∈ th.leases ↔
    (p = .own ∧ th.lp = some j) ∨ ∃ f ∈ th.stack, f.lease? = some (j, p) := by
  rw [leases, List.mem_append, List.mem_filterMap, List.mem_map]
  refine or_congr ⟨?_, ?_⟩ Iff.rfl
  · intro ⟨j', hj', heq⟩
    obtain ⟨rfl, rfl⟩ := Prod.mk.inj heq
    exact ⟨rfl, Option.mem_toList.mp hj'⟩
  · intro ⟨hp, hlp⟩
    exact ⟨j, Option.mem_toList.mpr hlp, by rw [hp]⟩

/-- A frame other than those of `GlobalMemoryManager::Free` goes on to such a frame. -/
theorem Follows.lease? (h : Follows c main s f f') (hf : f.lease? = none) : f'.lease? = none := by
  cases h with
  | allocate | extended | reporting | reported | exhausted | flush => rfl
  | release => exact absurd hf (by simp [Frame.lease?])

theorem Starts.lease? (h : Starts th a f) (ha : ∀ ptr, a ≠ .free ptr) : f.lease? = none := by
  cases h with
  | malloc | calloc | realloc | allFree => rfl
  | lateFree | free => exact absurd rfl (ha _)

/-- A call of `GlobalMemoryManager::Free` is alone on the stack. -/
theorem Shape.lease?_alone (h : Shape (f :: rest)) (hf : f.lease? ≠ none) : rest = [] := by
  cases rest with
  | nil => rfl
  | cons g rest =>
      cases rest with
      | nil => cases f <;> first | exact absurd rfl hf | exact absurd h (by simp [Shape])
      | cons g' rest => cases f <;> exact absurd h (by simp [Shape])

theorem Thread.KeepsLease.leases_eq (h : th.KeepsLease th')
    (hstack : th'.stack.filterMap Frame.lease? = th.stack.filterMap Frame.lease?) :
    th'.leases = th.leases := by
  rw [Thread.leases, Thread.leases, h.lp, hstack]

end Thread

section Steps

variable {c : Config} {main : Bool} {s s' : Shared} {th th' : Thread} {a : Action}

/-- An action that neither leases nor takes back. -/
structure Works (th : Thread) (a : Action) : Prop where
  start : ∀ core, a ≠ .start core
  exit : a ≠ .exit
  free : ∀ ptr, a = .free ptr → th.lp ≠ none
  resume : ∀ ret f rest, a = .resume ret → th.stack = f :: rest → f.lease? = none

theorem Works.leases (h : Works th a) (hact : act c main s th a = .next s' th') :
    th'.leases = th.leases := by
  have hfreed : ∀ ptr, a = .free ptr → th'.leases = th.leases := by
    rintro ptr rfl
    obtain ⟨-, -, rfl⟩ | ⟨-, hlp, -⟩ | ⟨j, -, -, -, hth⟩ := free_next hact
    · rfl
    · exact absurd hlp (h.free ptr rfl)
    · obtain ⟨cnts, hcount | hcount⟩ := countFree_cases c main s' th j ptr
      · rw [hth, hcount]
        rfl
      · rw [hth, hcount]
        rfl
  obtain ⟨hstack, hk | ⟨core, hstart⟩ | hexit⟩ | ⟨f, hstack, hk, hstarts⟩ |
    ⟨ret, f, rest, ha, hold, hk, hnew⟩ := act_stack hact
  · exact hk.leases_eq (by rw [hstack])
  · exact absurd hstart (h.start core)
  · exact absurd hexit h.exit
  · by_cases hfree : ∃ ptr, a = .free ptr
    · obtain ⟨ptr, ha⟩ := hfree
      exact hfreed ptr ha
    · have hf := hstarts.lease? fun ptr ha => hfree ⟨ptr, ha⟩
      exact hk.leases_eq (by rw [hstack, List.filterMap_cons_none hf])
  · have hf := h.resume ret f rest ha hold
    refine hk.leases_eq ?_
    rw [hold, List.filterMap_cons_none hf]
    cases hnew with
    | inl hrest => rw [hrest]
    | inr hnext =>
        obtain ⟨f', hstack, hfollows⟩ := hnext
        rw [hstack, List.filterMap_cons_none (hfollows.lease? hf)]

theorem Works.g (h : Works th a) (hact : act c main s th a = .next s' th') :
    s'.heap.g = s.heap.g := by
  obtain hg | ⟨core, -, hstart | ⟨ptr, hfree, hlp⟩⟩ | ⟨j, -, hexit | ⟨ret, rest, ha, hstack⟩⟩ :=
    act_g hact
  · exact hg
  · exact absurd hstart (h.start core)
  · exact absurd hlp (h.free ptr hfree)
  · exact absurd hexit h.exit
  · exact absurd (h.resume ret _ rest ha hstack) (by simp [Frame.lease?])

/-- A thread that has not started has no manager. -/
theorem act_fresh (hfresh : th.started = false → th.lp = none)
    (hact : act c main s th a = .next s' th') : th'.started = false → th'.lp = none := by
  have hkeeps : th.KeepsLease th' → th'.started = false → th'.lp = none := fun hk => by
    rw [hk.started, hk.lp]
    exact hfresh
  obtain ⟨-, hk | ⟨core, rfl⟩ | rfl⟩ | ⟨-, -, hk, -⟩ | ⟨-, -, -, -, -, hk, -⟩ := act_stack hact
  · exact hkeeps hk
  · obtain ⟨-, rfl⟩ := Result.next.inj hact
    exact fun hstarted => absurd hstarted (by simp)
  · rw [act, threadTerm] at hact
    split at hact
    case h_1 hlp =>
      obtain ⟨-, rfl⟩ := Result.next.inj hact
      exact fun _ => hlp
    case h_2 =>
      obtain ⟨-, rfl⟩ := Result.next.inj hact
      exact fun _ => rfl
  · exact hkeeps hk
  · exact hkeeps hk

/-- A thread flushes the manager it has leased. -/
theorem act_flushing (hready : th.ready a = true)
    (hflush : ∀ j i, .flush j i ∈ th.stack → th.lp = some j)
    (hact : act c main s th a = .next s' th') :
    ∀ j i, .flush j i ∈ th'.stack → th'.lp = some j := by
  intro j i hin
  obtain hk | ⟨-, -, hempty⟩ := act_lease_cases hready hact
  case inr => exact absurd (hempty ▸ hin) List.not_mem_nil
  rw [hk.lp]
  obtain ⟨hstack, -⟩ | ⟨f, hstack, -, hstarts⟩ | ⟨ret, f, rest, -, hold, -, hnew⟩ :=
    act_stack hact
  · exact hflush j i (hstack ▸ hin)
  · rw [hstack, List.mem_cons] at hin
    rcases hin with rfl | hin
    · cases hstarts with
      | free hlp | allFree hlp => exact hlp
    · exact hflush j i hin
  · obtain hstack | ⟨f', hstack, hfollows⟩ := hnew
    · exact hflush j i (by rw [hold]; exact List.mem_cons_of_mem f (hstack ▸ hin))
    · rw [hstack, List.mem_cons] at hin
      rcases hin with rfl | hin
      · cases hfollows with
        | @flush _ i' => exact hflush j i' (by simp [hold])
      · exact hflush j i (by rw [hold]; exact List.mem_cons_of_mem f hin)

end Steps

/-! ### The simulation -/

section Simulation

variable {c : Config} {base : Nat → Nat} {w w' : World} {x x' : State} {t t' : Nat} {a : Action}
  {s : Shared} {th : Thread} {j : Nat} {p p' : Purpose}

/-- Only the leases of the thread that takes a step change. -/
theorem Leased.commit (h : Leased w x) (hg : x'.g = s.heap.g) (hstore : x'.store = s.heap.store)
    (hothers : ∀ e, e.thread ≠ t → (e ∈ x'.leases ↔ e ∈ x.leases))
    (hself : ∀ j p, ⟨t, j, p⟩ ∈ x'.leases ↔ (j, p) ∈ th.leases) :
    Leased (w.commit c t s th) x' where
  g := hg
  store := hstore
  leases e := by
    obtain ⟨t', j, p⟩ := e
    rw [World.commit_threads]
    by_cases ht : t' = t
    · subst ht
      rw [Function.update_self]
      exact hself j p
    · rw [Function.update_of_ne ht, hothers _ ht]
      exact h.leases _

theorem Leased.work (h : Leased w x) (hg : s.heap.g = w.shared.heap.g)
    (hleases : th.leases = (w.threads t).leases) :
    Leased (w.commit c t s th) { x with store := s.heap.store } := by
  refine h.commit (h.g.trans hg.symm) rfl (fun _ _ => Iff.rfl) fun j p => ?_
  rw [hleases]
  exact h.leases _

/-- **A new lease** of a thread that had none. -/
theorem Leased.grant (h : Leased w x) {core : Nat} (hnone : (w.threads t).leases = [])
    (hg : s.heap.g = (allocLocalMemoryManager c w.shared.heap.g core).2)
    (hstore : s.heap.store = w.shared.heap.store)
    (hleases : th.leases =
      (allocLocalMemoryManager c w.shared.heap.g core).1.toList.map (·, p)) :
    Leased (w.commit c t s th) (Leasing.grant c x t core p) := by
  have hold : ∀ j p, ⟨t, j, p⟩ ∉ x.leases := by
    intro j p hin
    have hmem := (h.leases _).mp hin
    rw [hnone] at hmem
    exact absurd hmem List.not_mem_nil
  unfold Leasing.grant
  rw [h.g]
  dsimp only
  split
  case h_1 j hj =>
    refine h.commit hg.symm (h.store.trans hstore.symm) (fun e he => ?_) fun j' p' => ?_
    · rw [List.mem_cons, or_iff_right]
      rintro rfl
      exact he rfl
    · rw [hleases, hj, List.mem_cons, or_iff_left (hold j' p')]
      simp
  case h_2 hnull =>
    refine h.commit hg.symm (h.store.trans hstore.symm) (fun _ _ => Iff.rfl) fun j' p' => ?_
    rw [hleases, hnull, iff_false_left (hold j' p')]
    exact List.not_mem_nil

/-- Giving one lease up, and getting those in `new`. -/
theorem Leased.exchange (h : Leased w x) (hx : Exclusive c x) (rest : List (Nat × Purpose))
    (hold : ∀ j' p', (j', p') ∈ (w.threads t).leases ↔ (j', p') = (j, p) ∨ (j', p') ∈ rest)
    (hrest : (j, p) ∉ rest) (new : List Lease) (hnew : ∀ e ∈ new, e.thread = t)
    (hleases : ∀ j' p', (j', p') ∈ th.leases ↔ ⟨t, j', p'⟩ ∈ new ∨ (j', p') ∈ rest)
    (hg : x'.g = s.heap.g) (hstore : x'.store = s.heap.store)
    (hx' : x'.leases = new ++ x.leases.erase ⟨t, j, p⟩) : Leased (w.commit c t s th) x' := by
  have hnodup : x.leases.Nodup := .of_map _ hx.unique
  refine h.commit hg hstore (fun e he => ?_) fun j' p' => ?_
  · have hout : e ∉ new := fun hin => he (hnew e hin)
    rw [hx', List.mem_append, or_iff_right hout, hnodup.mem_erase_iff, and_iff_right]
    rintro rfl
    exact he rfl
  · rw [hx', List.mem_append, hnodup.mem_erase_iff, h.leases, hold, hleases]
    refine or_congr Iff.rfl ?_
    constructor
    · intro ⟨hne, hin⟩
      exact hin.resolve_left fun heq => hne (by
        obtain ⟨rfl, rfl⟩ := Prod.mk.inj heq
        rfl)
    · intro hin
      refine ⟨fun heq => hrest ?_, Or.inr hin⟩
      obtain ⟨-, rfl, rfl⟩ := Lease.mk.inj heq
      exact hin

/-- `GlobalMemoryManager::Free` takes the manager back that it has leased. -/
theorem Leased.late (hinv : OwnershipInv c w) (h : Leased w x) (hx : Exclusive c x) {f : Frame}
    {rest : List Frame} {ret : Nat} (hstack : (w.threads t).stack = f :: rest)
    (hf : f.lease? ≠ none)
    (hact : resume c (mainThread t) w.shared { w.threads t with stack := rest } ret f =
      .next s th) :
    ∃ b x', Leasing.step c x b = some x' ∧ Leased (w.commit c t s th) x' := by
  have hshape := hinv.locking.shape t
  rw [hstack] at hshape
  obtain rfl : rest = [] := hshape.lease?_alone hf
  cases f with
  | freeing j ptr =>
      obtain ⟨rfl, rfl⟩ := Result.next.inj hact
      have hlease : (⟨t, j, .freeing ptr⟩ : Lease) ∈ x.leases := (h.leases _).mpr (by
        simp [Thread.leases, hstack, Frame.lease?])
      refine ⟨.freePush t j ptr, _, if_pos hlease, ?_⟩
      refine h.exchange hx ((w.threads t).lp.toList.map (·, .own)) (fun j' p' => ?_) (by simp)
        [⟨t, j, .freed⟩] (by simp) (fun j' p' => ?_) h.g ?_ rfl
      · rw [Thread.leases, hstack, List.mem_append, or_comm]
        simp [Frame.lease?]
      · rw [Thread.leases, List.mem_append, or_comm]
        simp [Thread.push, Frame.lease?]
      · show (managerPools c j).free x.store ptr = (managerPools c j).free w.shared.heap.store ptr
        rw [h.store]
  | release j =>
      obtain ⟨rfl, rfl⟩ := Result.next.inj hact
      have hlease : (⟨t, j, .freed⟩ : Lease) ∈ x.leases := (h.leases _).mpr (by
        simp [Thread.leases, hstack, Frame.lease?])
      refine ⟨.freeEnd t j, _, if_pos hlease, ?_⟩
      refine h.exchange hx ((w.threads t).lp.toList.map (·, .own)) (fun j' p' => ?_) (by simp)
        [] (by simp) (fun j' p' => ?_) ?_ ?_ rfl
      · rw [Thread.leases, hstack, List.mem_append, or_comm]
        simp [Frame.lease?]
      · rw [Thread.leases, List.mem_append, or_comm]
        simp
      · rw [takeBack, h.g, h.store]
      · rw [takeBack, h.g, h.store]
  | pool | allocate | printing | flush => exact absurd rfl hf

/-- A thread that ends gives back the manager it has been using. -/
theorem Leased.exit (h : Leased w x) (hx : Exclusive c x) (hidle : (w.threads t).stack = [])
    (hact : threadTerm c w.shared (w.threads t) = .next s th) :
    ∃ b x', Leasing.step c x b = some x' ∧ Leased (w.commit c t s th) x' := by
  rw [threadTerm] at hact
  cases hlp : (w.threads t).lp with
  | none =>
      rw [hlp] at hact
      obtain ⟨rfl, rfl⟩ := Result.next.inj hact
      refine ⟨.work w.shared.heap.store, _, rfl, h.work rfl ?_⟩
      rw [Thread.leases, Thread.leases, hlp]
  | some j =>
      rw [hlp] at hact
      obtain ⟨rfl, rfl⟩ := Result.next.inj hact
      have hlease : (⟨t, j, .own⟩ : Lease) ∈ x.leases := (h.leases _).mpr (by
        simp [Thread.leases, hlp])
      refine ⟨.release t j, _, if_pos hlease, ?_⟩
      refine h.exchange hx [] (fun j' p' => ?_) (by simp) [] (by simp) (fun j' p' => ?_) ?_ ?_ rfl
      · simp [Thread.leases, hlp, hidle]
      · simp [Thread.leases, hidle]
      · rw [takeBack, h.g, h.store]
      · rw [takeBack, h.g, h.store]

/-- A late `free` leases a manager of the core the block is from. -/
theorem Leased.lateFree (hinv : OwnershipInv c w) (h : Leased w x)
    (hidle : (w.threads t).stack = []) (hlp : (w.threads t).lp = none) {ptr : Nat}
    (hlive : ptr ∈ w.shared.live)
    (hact : lateFree c w.shared (w.threads t) ptr = .next s th) :
    ∃ b x', Leasing.step c x b = some x' ∧ Leased (w.commit c t s th) x' := by
  obtain ⟨j, hj, rfl, rfl⟩ := lateFree_next hact
  obtain ⟨q, hq⟩ := hinv.owned
  obtain ⟨b, hb, hbody⟩ := hq.live_carved ptr hlive
  have hcore : MemUtil.ptrToCore w.shared.heap.store.mem ptr < c.coreN := by
    rw [← hbody, hq.heap.ptrToCore hb]
    exact (hq.heap.blocks b hb).core_lt
  have hnone : (w.threads t).leases = [] := by
    rw [Thread.leases, hlp, hidle]
    rfl
  refine ⟨.freeBegin t ptr, _, if_pos ?_, ?_⟩
  · rw [h.g, h.store, hj]
    exact ⟨hcore, rfl⟩
  · rw [h.store]
    refine h.grant hnone rfl rfl ?_
    rw [hj, Thread.leases, Thread.push, hlp, hidle]
    rfl

/-- **Every step of the machine** is one action of the leases. -/
theorem Leased.step (hinv : OwnershipInv c w) (h : Leased w x) (hx : Exclusive c x)
    (hfresh : (w.threads t).started = false → (w.threads t).lp = none)
    (hlegal : Legal c w (t, a)) (hstep : w.step c t a = .next w') :
    ∃ b x', Leasing.step c x b = some x' ∧ Leased w' x' := by
  obtain ⟨hready, -, s, th, hact, rfl⟩ := World.step_next hstep
  by_cases hworks : Works (w.threads t) a
  · exact ⟨.work s.heap.store, _, rfl, h.work (hworks.g hact) (hworks.leases hact)⟩
  cases a with
  | start core =>
      simp only [Thread.ready, Bool.and_eq_true, Bool.not_eq_true', decide_eq_true_eq] at hready
      obtain ⟨rfl, rfl⟩ := Result.next.inj hact
      have hnone : (w.threads t).leases = [] := by
        rw [Thread.leases, hfresh hready.1, hready.2]
        rfl
      refine ⟨.alloc t core, _, if_pos hlegal.act, h.grant hnone rfl rfl ?_⟩
      rw [Thread.leases, hready.2, List.filterMap_nil, List.append_nil]
  | exit =>
      simp only [Thread.ready, Bool.and_eq_true, decide_eq_true_eq] at hready
      exact h.exit hx hready.2 hact
  | free ptr =>
      simp only [Thread.ready, Bool.and_eq_true, decide_eq_true_eq] at hready
      obtain ⟨-, rfl, rfl⟩ | ⟨hne, hlp, hlate⟩ | ⟨j, -, hlp, -⟩ := free_next hact
      · exact ⟨.work w.shared.heap.store, _, rfl, h.work rfl rfl⟩
      · exact h.lateFree hinv hready.2 hlp (hlegal.act hne) hlate
      · -- with a manager of its own the thread leases nothing for a `free`
        refine absurd ⟨by simp, by simp, fun _ _ => ?_, by simp⟩ hworks
        rw [hlp]
        simp
  | resume ret =>
      rw [act] at hact
      split at hact
      · exact absurd hact (by simp)
      case h_2 f rest hstack =>
        refine h.late hinv hx hstack (fun hf => hworks ⟨by simp, by simp, by simp, ?_⟩) hact
        intro ret' f' rest' _ hstack'
        obtain ⟨rfl, -⟩ := List.cons.inj (hstack.symm.trans hstack')
        exact hf
  | malloc | calloc | realloc | allFree | store =>
      exact absurd ⟨by simp, by simp, by simp, by simp⟩ hworks

/-- What the leases of a run are known to be. -/
structure LeasesInv (c : Config) (w : World) : Prop where
  inv : OwnershipInv c w
  fresh : ∀ t, (w.threads t).started = false → (w.threads t).lp = none
  flushing : ∀ t j i, .flush j i ∈ (w.threads t).stack → (w.threads t).lp = some j
  leased : ∃ x, Exclusive c x ∧ Leased w x

theorem LeasesInv.start (hbase : c.FreshBase base) (mem : ByteMemory.Memory) :
    LeasesInv c (World.init c base mem) where
  inv := OwnershipInv.start hbase mem
  fresh _ _ := rfl
  flushing _ _ _ hin := absurd hin List.not_mem_nil
  leased := by
    refine ⟨_, init_exclusive (World.init c base mem).shared.heap.store, rfl, rfl, fun e => ?_⟩
    simp [World.init, Thread.blank, Thread.leases]

/-- **Every legal step.** -/
theorem LeasesInv.step (hc : Setting c) (h : LeasesInv c w) (hlegal : Legal c w (t, a))
    (hstep : w.step c t a = .next w') : LeasesInv c w' := by
  have hinv := (h.inv.step hc hlegal hstep).1
  obtain ⟨x, hx, hleased⟩ := h.leased
  obtain ⟨b, x', hb, hleased'⟩ := hleased.step h.inv hx (h.fresh t) hlegal hstep
  obtain ⟨hready, -, s, th, hact, rfl⟩ := World.step_next hstep
  refine ⟨hinv, ?_, ?_, x', step_exclusive hx hb, hleased'⟩
  · exact World.forall_commit (P := fun _ th => th.started = false → th.lp = none) h.fresh
      (act_fresh (h.fresh t) hact)
  · exact World.forall_commit (P := fun _ th => ∀ j i, .flush j i ∈ th.stack → th.lp = some j)
      h.flushing (act_flushing hready (h.flushing t) hact)

/-- **A manager is in one thread's hands**, and its flag is set. -/
theorem LeasesInv.exclusive (h : LeasesInv c w) (hj : (j, p) ∈ (w.threads t).leases) :
    j < managerN c ∧ w.shared.heap.g.poolFlags j = true ∧ -1 ≤ w.shared.heap.g.freeOffset ∧
      ∀ t' p', (j, p') ∈ (w.threads t').leases → t' = t ∧ p' = p := by
  obtain ⟨x, hx, hleased⟩ := h.leased
  have hmem : (⟨t, j, p⟩ : Lease) ∈ x.leases := (hleased.leases _).mpr hj
  refine ⟨hx.managers _ hmem, ?_, ?_, fun t' p' hj' => ?_⟩
  · rw [← hleased.g]
    exact (hx.flags j).mpr ⟨_, hmem, rfl⟩
  · rw [← hleased.g]
    exact hx.freeOffset
  · have hmem' : (⟨t', j, p'⟩ : Lease) ∈ x.leases := (hleased.leases _).mpr hj'
    obtain ⟨ht, -, hp⟩ := Lease.mk.inj (List.inj_on_of_nodup_map hx.unique hmem' hmem rfl)
    exact ⟨ht, hp⟩

end Simulation

end FCMalloc.Machine
