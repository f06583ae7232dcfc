import FCMalloc.BoundedHoarding
import FCMalloc.ManagerLine
import FCMalloc.RaceFreedom

/-!
# FCMalloc.FifoReuse

A manager hands its blocks out in the order in which they came to it.

The steps of the thread that has leased the manager pass its blocks along its lines
(`Passes`), because the calls of `Malloc` under way have found `free_[core_]` empty and no `free`
comes in between (`LineInv`). The steps of all other threads leave the two lists alone
(`LeasesInv.elsewhere`). What flows through a line in a whole run follows by composition.
-/

namespace FCMalloc.Machine

open ByteMemory GlobalMemoryManager LocalMemoryManager

/-- What passes through class `i` of manager `j` in a step of thread `t`: the pointers it hands
out, and those of the manager's own core that come back to it. -/
def traffic (c : Config) (t j : Nat) (i : SizeClass) (w : World) (a : Nat × Action) (w' : World) :
    List Nat × List Nat :=
  if a.1 = t then
    (takenOf i (event w a w'),
      (givenUpOf (event w a w')).filter ((managerPools c j).isHome i w.shared.heap.store.mem))
  else ([], [])

/-- **The invariant of thread `t`'s line**: of its calls only the topmost may give a pointer up
and then it is alone, its frees use its own manager, and its calls of `Malloc` have found
`free_[core_]` empty. -/
structure LineInv (c : Config) (t : Nat) (w : World) : Prop where
  leases : LeasesInv c w
  nested : ∀ f rest, (w.threads t).stack = f :: rest → rest = [] ∨ f.pending = none
  late : ∀ j, (w.threads t).lp = some j → ∀ f ∈ (w.threads t).stack, f.lease? = none
  passed : ∀ q, w.Lists q → ∀ f ∈ (w.threads t).stack, ∀ r, f.request = some r →
    q ((r.lm c).coreQueue (sizeClass r.size)) = []

section Runs

variable {c : Config} {base : Nat → Nat} {main : Bool} {w w' : World} {t t' j : Nat} {a : Action}
  {s s' : Shared} {th th' : Thread} {l : ListId} {q q' : QueueId → List Nat} {i : SizeClass}

/-- A step with frames below the topmost gives no pointer up. -/
theorem below_or_given (hnested : ∀ f rest, th.stack = f :: rest → rest = [] ∨ f.pending = none)
    (hready : th.ready a = true) : a.below th = [] ∨ a.given th = none := by
  cases a with
  | malloc size => exact Or.inr rfl
  | resume ret =>
      cases hstack : th.stack with
      | nil => exact Or.inl (by simp [Action.below, hstack])
      | cons f rest => simpa [Action.below, Action.given, hstack] using hnested f rest hstack
  | start | exit | calloc | realloc | free | allFree | store =>
      simp only [Thread.ready, Bool.and_eq_true, decide_eq_true_eq] at hready
      exact Or.inl hready.2

theorem nested_step {arena : Option Nat}
    (hnested : ∀ f rest, th.stack = f :: rest → rest = [] ∨ f.pending = none)
    (hshape : Shape th.stack) (hready : th.ready a = true)
    (hadvance : Advance c main s s' (a.below th) th' (a.given th) arena) :
    ∀ f rest, th'.stack = f :: rest → rest = [] ∨ f.pending = none := by
  intro f rest hstack
  obtain hbelow | ⟨f', hpushed, -, hgives⟩ := hadvance.stack
  · rw [hbelow] at hstack
    cases a with
    | resume ret =>
        -- what has been uncovered is at the bottom
        obtain ⟨g, hg⟩ : ∃ g, th.stack = g :: f :: rest := by
          cases hold : th.stack with
          | nil => simp [Action.below, hold] at hstack
          | cons g tail => exact ⟨g, by simpa [Action.below, hold] using hstack⟩
        rw [hg] at hshape
        exact Or.inl (by cases rest <;> cases g <;> cases f <;> simp [Shape] at hshape ⊢)
    | start | exit | malloc | calloc | realloc | free | allFree | store =>
        exact hnested f rest hstack
  · obtain ⟨rfl, hrest⟩ := List.cons.inj (hpushed.symm.trans hstack)
    refine (below_or_given hnested hready).imp (hrest ▸ ·) fun hnone => ?_
    cases hp : f'.pending with
    | none => rfl
    | some p => exact absurd (hgives p hp) (by simp [hnone])

/-- A thread with a manager of its own does not lease another. -/
theorem late_step (hlate : ∀ j, th.lp = some j → ∀ f ∈ th.stack, f.lease? = none)
    (hready : th.ready a = true) (hact : act c main s th a = .next s' th') :
    ∀ j, th'.lp = some j → ∀ f ∈ th'.stack, f.lease? = none := by
  intro j hj f hf
  obtain hk | ⟨-, -, hidle⟩ := act_lease_cases hready hact
  · rw [hk.lp] at hj
    have hold := hlate j hj
    obtain ⟨hstack, -⟩ | ⟨g, hstack, -, hstarts⟩ | ⟨ret, g, rest, -, hstack, -, hnew⟩ :=
      act_stack hact
    · exact hold f (hstack ▸ hf)
    · rw [hstack] at hf
      rcases List.mem_cons.mp hf with rfl | hf
      · cases hstarts with
        | lateFree =>
            obtain ⟨-, -, rfl⟩ | ⟨-, hnone, -⟩ | ⟨j', -, -, -, rfl⟩ := free_next hact
            · exact hold _ (hstack ▸ List.mem_cons_self)
            · exact absurd (hnone.symm.trans hj) (by simp)
            · obtain ⟨cnts, heq | heq⟩ := countFree_cases c main s' th j' _
              · exact hold _ (by rw [heq] at hstack; rw [hstack]; exact List.mem_cons_self)
              · rw [heq] at hstack
                exact absurd (List.cons.inj hstack).1 (by simp)
        | malloc | calloc | realloc | free | allFree => rfl
      · exact hold f hf
    · rw [hstack] at hold
      have hrest : ∀ f ∈ rest, f.lease? = none := fun f hf => hold f (List.mem_cons_of_mem g hf)
      rcases hnew with heq | ⟨g', heq, hfollows⟩
      · exact hrest f (heq ▸ hf)
      · rw [heq] at hf
        rcases List.mem_cons.mp hf with rfl | hf
        · exact hfollows.lease? (hold g List.mem_cons_self)
        · exact hrest f hf
  · exact absurd (hidle ▸ hf) List.not_mem_nil

/-- **The lists of a leased manager** are touched by the thread that has leased it only. -/
theorem LeasesInv.untouched (h : LeasesInv c w) (hlp : (w.threads t).lp = some j) (hne : t' ≠ t)
    (hl : Leasing.ListOf c j l) : ¬ a.Touches c w.shared (w.threads t') l := by
  intro htouches
  obtain ⟨hj, hflag, -, honly⟩ := h.exclusive (Thread.mem_leases.mpr (Or.inl ⟨rfl, hlp⟩))
  cases Action.Touches.guarded h htouches with
  | leased hlease hof =>
      obtain rfl := hl.manager_eq hof hj (h.exclusive hlease).1
      exact hne (honly _ _ hlease).1
  | pool heq => exact hl.ne_pool hj _ heq
  | idle hlt hidle heq =>
      obtain rfl := hl.manager_eq (Or.inl heq) hj hlt
      exact absurd (hflag.symm.trans hidle) (by simp)

theorem LeasesInv.started (h : LeasesInv c w) (hlp : (w.threads t).lp = some j) :
    (w.threads t).started = true := by
  cases hold : (w.threads t).started with
  | true => rfl
  | false => exact absurd ((h.fresh t hold).symm.trans hlp) (by simp)

/-- A thread keeps its manager until it exits. -/
theorem LeasesInv.lp_kept (h : LeasesInv c w) (hlp : (w.threads t).lp = some j)
    (hne : (t', a) ≠ (t, .exit)) (hstep : w.step c t' a = .next w') :
    (w'.threads t).lp = some j := by
  obtain ⟨hready, -, s, th, hact, rfl⟩ := World.step_next hstep
  rw [World.commit_threads]
  by_cases ht : t = t'
  · subst ht
    rw [Function.update_self]
    obtain hk | ⟨⟨core, rfl⟩ | rfl, -⟩ := act_lease_cases hready hact
    · exact hk.lp.trans hlp
    · exact absurd hready (by simp [Thread.ready, h.started hlp])
    · exact absurd rfl hne
  · rw [Function.update_of_ne ht]
    exact hlp

/-- A step of another thread leaves the two lists of a leased manager alone. -/
theorem LeasesInv.elsewhere (hc : Setting c) (h : LeasesInv c w)
    (hlp : (w.threads t).lp = some j) (hne : t' ≠ t) (hlegal : Legal c w (t', a))
    (hstep : w.step c t' a = .next w') (hq : w.Lists q) (hq' : w'.Lists q') (i : SizeClass) :
    q' ((managerPools c j).ownQueue i) = q ((managerPools c j).ownQueue i) ∧
      q' ((managerPools c j).coreQueue i) = q ((managerPools c j).coreQueue i) := by
  have hj := h.inv.leases t j hlp
  exact ⟨step_same (x := .list _) hc h.inv hlegal hstep
      (h.untouched hlp hne (Or.inl rfl)) q q' hq hq' i,
    step_same (x := .list _) hc h.inv hlegal hstep
      (h.untouched hlp hne (Or.inr ⟨_, core_lt hj, rfl⟩)) q q' hq hq' i⟩

theorem LineInv.start (hbase : c.FreshBase base) (mem : Memory) :
    LineInv c t (World.init c base mem) where
  leases := LeasesInv.start hbase mem
  nested _ _ hstack := absurd hstack (by simp [World.init, Thread.blank])
  late _ hlp := absurd hlp (by simp [World.init, Thread.blank])
  passed _ _ _ hf := absurd hf List.not_mem_nil

/-- **A step of the holder**, as the machine makes it. -/
theorem LineInv.holder (hc : Setting c) (h : LineInv c t w) (hlp : (w.threads t).lp = some j)
    (hlegal : Legal c w (t, a)) (hexit : a ≠ .exit) (hstep : w.step c t a = .next w')
    (hq : w.Lists q) (hq' : w'.Lists q') :
    Passes (managerPools c j) w.shared.heap.store.mem q q' (w'.threads t) (event w (t, a) w') := by
  obtain ⟨q₁, hq₁⟩ := h.leases.inv.owned
  obtain ⟨q₂, hq₂⟩ := (h.leases.inv.step hc hlegal hstep).1.owned
  obtain rfl := hq.unique hq₁.lists
  obtain rfl := hq'.unique hq₂.lists
  obtain ⟨hready, -, s, th, hact, rfl⟩ := World.step_next hstep
  have hmanager : ∀ f ∈ (w.threads t).stack, ∀ r, f.request = some r → r.manager = j :=
    fun f hf r hr => Option.some.inj
      ((h.leases.inv.locking.requests t f hf r hr).1.symm.trans hlp)
  have hpassed : ∀ f ∈ (w.threads t).stack, ∀ r, f.request = some r →
      q ((managerPools c j).coreQueue (sizeClass r.size)) = [] := fun f hf r hr =>
    hmanager f hf r hr ▸ h.passed q hq f hf r hr
  obtain ⟨q'', hheap, hpasses⟩ := act_passes hc hq₁ (h.leases.started hlp) hlp (h.leases.inv.leases t j hlp)
    hready hexit (h.leases.inv.frames t) (h.late j hlp) hmanager (below_or_given h.nested hready)
    hpassed hlegal.act hact
  obtain rfl := hheap.sound.linked.unique hq₂.heap.sound.linked
  have hself : (w.commit c t s th).threads t = th := by
    rw [World.commit_threads, Function.update_self]
  rw [hself]
  exact hpasses

/-- **Every step** of every thread. -/
theorem LineInv.step (hc : Setting c) (h : LineInv c t w) (hlegal : Legal c w (t', a))
    (hstep : w.step c t' a = .next w') : LineInv c t w' := by
  have hleases := h.leases.step hc hlegal hstep
  obtain ⟨q, hq⟩ := h.leases.inv.owned
  have hlp := fun f hf r hr => (hleases.inv.locking.requests t f hf r hr).1
  obtain ⟨hready, -, s, th, hact, hw⟩ := World.step_next hstep
  by_cases hne : t' = t
  · subst hne
    have hself : w'.threads t' = th := by rw [hw, World.commit_threads, Function.update_self]
    have hadvance := act_advance hc hq (h.leases.inv.leases t') h.leases.inv.offset
      (h.leases.inv.frames t') hlegal.act hact
    refine ⟨hleases, ?_, ?_, fun q' hq' f hf r hr => ?_⟩
    · rw [hself]
      exact nested_step h.nested (h.leases.inv.locking.shape t') hready hadvance
    · rw [hself]
      exact late_step h.late hready hact
    · obtain hk | ⟨-, -, hidle⟩ := act_lease_cases hready hact
      · have hold : (w.threads t').lp = some r.manager := by
          rw [← hk.lp, ← hself]
          exact hlp f hf r hr
        have hexit : a ≠ .exit := by
          rintro rfl
          have hgone : th.lp = none := by
            rw [act, threadTerm] at hact
            split at hact
            · obtain ⟨-, rfl⟩ := Result.next.inj hact
              assumption
            · obtain ⟨-, rfl⟩ := Result.next.inj hact
              rfl
          exact absurd (hgone.symm.trans (hk.lp.trans hold)) (by simp)
        exact (h.holder hc hold hlegal hexit hstep hq.lists hq').passed f hf r hr
      · exact absurd (hidle ▸ hself ▸ hf) List.not_mem_nil
  · have hself : w'.threads t = w.threads t := by
      rw [hw, World.commit_threads, Function.update_of_ne (Ne.symm hne)]
    refine ⟨hleases, ?_, ?_, fun q' hq' f hf r hr => ?_⟩
    · exact hself ▸ h.nested
    · exact hself ▸ h.late
    · have hold : (w.threads t).lp = some r.manager := hself ▸ hlp f hf r hr
      refine (h.leases.elsewhere hc hold hne hlegal hstep hq.lists hq' _).2.trans ?_
      exact h.passed q hq.lists f (hself ▸ hf) r hr

/-- **First in, first out.** From every state of every run on, for any number of threads and in
any order of their steps, as long as thread `t` keeps its manager `j`: the pointers that `t` is
handed out in a class are those that were on its two lists of that class, in their order, and
after them those that have come to the manager since, in theirs; among these are all blocks
of its own core that `t` has given up. -/
theorem fifo_reuse (c : Config) (base : Nat → Nat) (w w' : World) (t j : Nat) (i : SizeClass)
    (es : List (List Nat × List Nat)) (q q' : QueueId → List Nat) (hc : Setting c)
    (hbase : c.FreshBase base) (hrun : (system c base).Run (Legal c) w)
    (hlp : (w.threads t).lp = some j)
    (hpath : Traced ((system c base).Sees (fun w a => Legal c w a ∧ a ≠ (t, .exit))
      (traffic c t j i)) w es w') (hq : w.Lists q) (hq' : w'.Lists q') :
    ∃ later, (es.flatMap Prod.snd).Sublist later ∧
      Flows ((managerPools c j).line i q) (es.flatMap Prod.fst) later
        ((managerPools c j).line i q') := by
  have hinv : LineInv c t w := by
    refine hrun.invariant (motive := LineInv c t) ?_ fun _ _ _ h hok hs => h.step hc hok hs
    rintro _ ⟨mem, rfl⟩
    exact LineInv.start hbase mem
  let Holds := fun (es : List (List Nat × List Nat)) (w₁ : World) =>
    LineInv c t w₁ ∧ (w₁.threads t).lp = some j ∧ ∀ q₁, w₁.Lists q₁ →
      ∃ later, (es.flatMap Prod.snd).Sublist later ∧
        Flows ((managerPools c j).line i q) (es.flatMap Prod.fst) later
          ((managerPools c j).line i q₁)
  have hholds : Holds es w' := by
    refine hpath.invariant (motive := Holds) ⟨hinv, hlp, fun q₁ hq₁ => ?_⟩ ?_
    · obtain rfl := hq.unique hq₁
      exact ⟨[], List.Sublist.refl _, Flows.refl _⟩
    · rintro es w₁ e w₂ ⟨h, hlp₁, hflows⟩ ⟨⟨t', a⟩, ⟨hlegal, hne⟩, hstep, rfl⟩
      refine ⟨h.step hc hlegal hstep, h.leases.lp_kept hlp₁ hne hstep, fun q₂ hq₂ => ?_⟩
      obtain ⟨q₁, hq₁⟩ := h.leases.inv.owned
      obtain ⟨later, hsub, hline⟩ := hflows q₁ hq₁.lists
      rw [List.flatMap_append, List.flatMap_append, List.flatMap_singleton, List.flatMap_singleton]
      by_cases ht : t' = t
      · subst ht
        obtain ⟨later', hsub', hline'⟩ := (h.holder hc hlp₁ hlegal (fun heq => hne (heq ▸ rfl))
          hstep hq₁.lists hq₂).flows i
        simp only [traffic, if_pos]
        exact ⟨later ++ later', hsub.append hsub', hline.trans hline'⟩
      · obtain ⟨hown, hcore⟩ := h.leases.elsewhere hc hlp₁ ht hlegal hstep hq₁.lists hq₂ i
        have hsame : (managerPools c j).line i q₂ = (managerPools c j).line i q₁ := by
          unfold LocalMemoryManager.line
          rw [hown, hcore]
        rw [traffic, if_neg ht, List.append_nil, List.append_nil, hsame]
        exact ⟨later, hsub, hline⟩
  exact hholds.2.2 q' hq'

/-- Only a thread that takes steps is in a call. -/
theorem idle_of_alone (hrun : (system c base).Run (Alone c t) w) (hne : t' ≠ t) :
    (w.threads t').stack = [] := by
  refine hrun.invariant (motive := fun w => (w.threads t').stack = []) ?_ ?_
  · rintro _ ⟨mem, rfl⟩
    rfl
  · rintro w ⟨t₁, a⟩ w' h ⟨-, rfl, -⟩ hstep
    obtain ⟨-, -, s, th, -, rfl⟩ := World.step_next hstep
    rw [World.commit_threads, Function.update_of_ne hne]
    exact h

/-- What two threads do is legal from a state on in which the others are in no call. -/
theorem Pair.traced {ε : Type} {see : World → Nat × Action → World → ε} {es : List ε}
    {ok : World → Nat × Action → Prop} (hidle : ∀ t, 2 ≤ t → (w.threads t).stack = [])
    (hpath : Traced ((system c base).Sees (fun w a => Pair c w a ∧ ok w a) see) w es w') :
    Traced ((system c base).Sees (fun w a => Legal c w a ∧ ok w a) see) w es w' := by
  let Idle := fun w x : World => x = w ∧ ∀ t, 2 ≤ t → (w.threads t).stack = []
  have hstep : ∀ w₁ e w₂ x, Idle w₁ x →
      (system c base).Sees (fun w a => Pair c w a ∧ ok w a) see w₁ e w₂ →
      ∃ x', (system c base).Sees (fun w a => Legal c w a ∧ ok w a) see x e x' ∧ Idle w₂ x' := by
    rintro w e w' _ ⟨rfl, h⟩ ⟨⟨t, a⟩, ⟨⟨hlt, hlegal⟩, hok⟩, hstep, rfl⟩
    refine ⟨w', ⟨(t, a), ⟨hlegal h, hok⟩, hstep, rfl⟩, rfl, fun t' ht' => ?_⟩
    obtain ⟨-, -, s, th, -, rfl⟩ := World.step_next hstep
    have hne : t' ≠ t := by
      have : t < 2 := hlt
      omega
    rw [World.commit_threads, Function.update_of_ne hne]
    exact h t' ht'
  obtain ⟨x, hlegal, rfl, -⟩ := hpath.simulate hstep (show Idle w w from ⟨rfl, hidle⟩)
  exact hlegal

/-- Thread 1 frees the block it got in `carveRun` and allocates twice. -/
def reuseRun : List (Nat × Action) :=
  [(1, .free 139637976727600), (1, .malloc 65536), (1, .malloc 65536)]

theorem reuseRun_made : ((Option.get _ carveRun_made).run MmapManager.oneCore
    (trades MmapManager.oneCore) reuseRun).isSome = true := by
  decide +kernel

/-- It gets the block that `carveRun` has left on its list, and after it the one it has freed. -/
theorem fifo_reuse_reuseRun : ∃ q q' : QueueId → List Nat, ∃ later,
    [139637976727600].Sublist later ∧
      Flows ((managerPools MmapManager.oneCore 0).line (sizeClass 65536) q)
        [139637976793184, 139637976727600] later
        ((managerPools MmapManager.oneCore 0).line (sizeClass 65536) q') := by
  let c := MmapManager.oneCore
  let w := Option.get _ carveRun_made
  have hpath := World.run_traced MmapManager.oneCoreBase
    (fun w a => Pair c w a ∧ a ≠ (1, .exit)) (traffic c 1 0 (sizeClass 65536))
    (p := trades c) (fun w a h => ⟨.of_trades h, fun heq => absurd h (by
      rw [heq]
      simp [trades, allocates])⟩) .nil (Option.some_get reuseRun_made).symm
  have hidle : ∀ t, 2 ≤ t → (w.threads t).stack = [] := fun t ht =>
    idle_of_alone carveRun_alone (by omega)
  have hlegal := Pair.traced hidle hpath
  have htraffic : w.trace c (traffic c 1 0 (sizeClass 65536)) reuseRun =
      [([], [139637976727600]), ([139637976793184], []), ([139637976727600], [])] := by
    decide +kernel
  rw [List.nil_append, htraffic] at hlegal
  have hinv := OwnershipInv.run oneCore_setting (by decide) carveRun_legal
  obtain ⟨q, hq⟩ := hinv.owned
  have hstays : (system c MmapManager.oneCoreBase).Run
      (fun w a => Legal c w a ∧ a ≠ (1, .exit)) w :=
    carveRun_alone.mono fun w a h => ⟨h.1, fun heq => h.2.2 (heq ▸ rfl)⟩
  obtain ⟨q', hq'⟩ := (OwnershipInv.run oneCore_setting (by decide)
    ((hstays.traced hlegal).mono fun _ _ h => h.1)).owned
  obtain ⟨later, hsub, hflows⟩ := fifo_reuse c MmapManager.oneCoreBase w _ 1 0 (sizeClass 65536) _
    q q' oneCore_setting (by decide) carveRun_legal (by decide +kernel) hlegal hq.lists hq'.lists
  exact ⟨q, q', later, hsub, hflows⟩

end Runs

end FCMalloc.Machine
