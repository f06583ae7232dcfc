import FCMalloc.OwnershipRuns

/-!
# FCMalloc.SequentialCalls

A call that no other thread disturbs runs from start to end as `FCMalloc.Allocator` has it.

There a call is one function; in `FCMalloc.Machine` it is up to seven steps, and two more for each
`malloc` of the report's `printf`. `Malloc` is followed through its sections, from the last one to
the first: each lemma says where the steps that are left lead (`Runs`), and the one before it adds
steps to that (`Runs.after`).
-/

namespace FCMalloc.Machine

open ByteMemory GlobalMemoryManager LocalMemoryManager

section Undisturbed

variable [ClzZero]

/-- A call that allocates. -/
inductive Call
  | malloc (size : Nat)
  | calloc (nmemb size : Nat)
  | realloc (ptr size : Nat)

namespace Call

/-- The step that begins the call. -/
def action : Call → Action
  | malloc size => .malloc size
  | calloc nmemb size => .calloc nmemb size
  | realloc ptr size => .realloc ptr size

/-- The call from start to end. -/
def run (c : Config) (main : Bool) (lp : LocalMemoryManager) (s : Process) (ret : Nat)
    (asked : List Nat) : Call → Option (Nat × Process)
  | malloc size => Api.malloc c main lp s size ret asked
  | calloc nmemb size => Api.calloc c main lp s nmemb size ret asked
  | realloc ptr size => Api.realloc c main lp s ptr size ret asked

end Call

/-- The world `w` with the shared state `s` and thread `t` in `th`, which alone holds mutexes. -/
def World.alone (c : Config) (w : World) (t : Nat) (s : Shared) (th : Thread) : World where
  shared := s
  threads := Function.update w.threads t th
  owner m := if m ∈ th.held c (mainThread t) then some t else none

/-- The steps of a thread that goes on by itself, and whose `printf` asks for `ns`, in order. -/
inductive GoesOn (t ret : Nat) : List Nat → List (Nat × Action) → Prop
  | nil : GoesOn t ret [] []
  | resume {ns : List Nat} {as : List (Nat × Action)} :
      GoesOn t ret ns as → GoesOn t ret ns ((t, .resume ret) :: as)
  | malloc {n : Nat} {ns : List Nat} {as : List (Nat × Action)} :
      GoesOn t ret ns as → GoesOn t ret (n :: ns) ((t, .malloc n) :: as)

/-- Thread `t` is in a function that goes on only by locking a mutex the thread holds, or that
never returns although it has the mutex it needs. -/
def Stuck (c : Config) (w : World) (t ret : Nat) : Prop :=
  (w.threads t).ready (.resume ret) = true ∧
    ((∃ m, w.step c t (.resume ret) = .relock m) ∨
      (∀ m, locks c (mainThread t) w.shared (w.threads t) (.resume ret) = some m →
        w.owner m = none) ∧
      act c (mainThread t) w.shared (w.threads t) (.resume ret) = .never)

/-- From `s` and `th`, thread `t` comes to `th'` in at most `k` steps, having asked for no more
than `asked` in its report: with the heap given and the pointer given as the last one returned,
or, if there is none, to where it is stuck. -/
def Runs (c : Config) (w : World) (t ret : Nat) (asked : List Nat) (k : Nat) (s : Shared)
    (th th' : Thread) : Option (Nat × Process) → Prop
  | some (ptr, heap) => ∃ ns as s' e es, ns <+: asked ∧ GoesOn t ret ns as ∧ as.length ≤ k ∧
      (w.alone c t s th).run c (fun _ _ => true) as = some (w.alone c t s' th') ∧
      s'.heap = heap ∧ e.ptr = ptr ∧ s'.returned = e :: (es ++ s.returned) ∧
      es.length ≤ ns.length
  | none => ∃ ns as w', ns <+: asked ∧ GoesOn t ret ns as ∧ as.length ≤ k ∧
      (w.alone c t s th).run c (fun _ _ => true) as = some w' ∧ Stuck c w' t ret

/-- The heap once `Malloc` has returned `ptr` and its caller has returned too. -/
def Request.finished (c : Config) (r : Request) (ptr : Nat) (heap : Process) : Process :=
  if ptr = 0 then heap
  else
    match r.caller with
    | .malloc => heap
    | .calloc => heap.setMem (fill heap.store.mem ptr r.size 0)
    | .realloc old preSize => (r.lm c).moveBody heap ptr old preSize

/-- The end of `Malloc`, from the range `p` on. -/
def served (c : Config) (heap : Process) (r : Request) (p : Nat) : Option (Nat × Process) :=
  (heap.carveInto c (r.lm c).mallocList (r.lm c).core r.size (r.n c) p).map fun heap =>
    let last := (r.lm c).mallocLast heap r.size
    (last.1, r.finished c last.1 last.2)

section Runs

variable {c : Config} {w w' : World} {t ret k : Nat} {s s' s₁ : Shared} {th th' th₁ : Thread}
  {a : Action} {o : Option (Nat × Process)} {r : Request} {f : Frame} {p n : Nat} {m : Mutex}
  {mm mm' : MmapManager} {asked ns ns' : List Nat} {as as' : List (Nat × Action)}
  {es : List Returned} {store : Store ListId}

theorem finish_heap (s : Shared) (r : Request) (ptr : Nat) :
    (s.finish c r ptr).heap = r.finished c ptr s.heap := by
  unfold Shared.finish Request.finished
  by_cases hptr : ptr = 0
  · simp only [hptr, if_true]
  · simp only [hptr, if_false]
    cases r.caller <;> rfl

omit [ClzZero] in
theorem GoesOn.append (h : GoesOn t ret ns as) (h' : GoesOn t ret ns' as') :
    GoesOn t ret (ns ++ ns') (as ++ as') := by
  induction h with
  | nil => exact h'
  | resume _ ih => exact .resume ih
  | malloc _ ih => exact .malloc ih

/-- One sequence of steps after the other. -/
theorem run_append {w₁ : World} (h : w.run c (fun _ _ => true) as = some w₁) :
    w.run c (fun _ _ => true) (as ++ as') = w₁.run c (fun _ _ => true) as' := by
  induction as generalizing w with
  | nil =>
      obtain rfl := Option.some.inj h
      rfl
  | cons a as ih =>
      rw [World.run, if_pos rfl] at h
      rw [List.cons_append, World.run, if_pos rfl]
      cases hstep : w.step c a.1 a.2 with
      | next w₂ =>
          rw [hstep] at h
          exact ih h
      | wait | relock | nullManager =>
          rw [hstep] at h
          exact absurd h (by simp)

omit [ClzZero] in
theorem alone_commit : (w.alone c t s th).commit c t s' th' = w.alone c t s' th' := by
  have hthreads : Function.update (Function.update w.threads t th) t th' =
      Function.update w.threads t th' := Function.update_idem ..
  have howner : (fun m => if m ∈ th'.held c (mainThread t) then some t
      else if (w.alone c t s th).owner m = some t then none else (w.alone c t s th).owner m) =
      fun m => if m ∈ th'.held c (mainThread t) then some t else none := by
    funext m
    split
    · rfl
    · simp only [World.alone]
      split <;> simp
  simp only [World.commit, howner]
  simp only [World.alone, hthreads]

/-- A step that needs no mutex its thread holds is made. -/
theorem alone_step (hready : th.ready a = true)
    (hlocks : ∀ m, locks c (mainThread t) s th a = some m → m ∉ th.held c (mainThread t)) :
    (w.alone c t s th).step c t a = (w.alone c t s th).go c t a := by
  have hthread : (w.alone c t s th).threads t = th := Function.update_self ..
  rw [World.step, hthread, hready]
  cases hl : locks c (mainThread t) (w.alone c t s th).shared th a with
  | none => rfl
  | some m =>
      have hfree : (w.alone c t s th).owner m = none := if_neg (hlocks m hl)
      simp only [hfree, Bool.not_true, Bool.false_eq_true, if_false]

/-- A step that needs no mutex its thread holds is what the function makes of it. -/
theorem alone_next (hready : th.ready a = true)
    (hlocks : ∀ m, locks c (mainThread t) s th a = some m → m ∉ th.held c (mainThread t))
    (hact : act c (mainThread t) s th a = .next s' th') :
    (w.alone c t s th).step c t a = .next (w.alone c t s' th') := by
  have hthread : (w.alone c t s th).threads t = th := Function.update_self ..
  have hact' : act c (mainThread t) (w.alone c t s th).shared th a = .next s' th' := hact
  rw [alone_step hready hlocks, World.go, hthread, hact']
  exact congrArg Outcome.next alone_commit

/-- No function locks a mutex that it holds itself. -/
theorem Frame.locks_apart {main : Bool} (h : f.locks c main s = some m) : m ∉ f.holds c main := by
  cases f with
  | printing r phase =>
      cases phase with
      | extended =>
          obtain rfl := Option.some.inj h
          simp [Frame.holds]
      | reporting | exhausted => exact absurd h (by simp [Frame.locks])
      | reported =>
          obtain ⟨-, heq⟩ := Option.ite_none_right_eq_some.mp h
          obtain rfl := Option.some.inj heq
          simp [Frame.holds]
  | _ => simp [Frame.holds]

/-- Going on with the only function under way needs no mutex its thread holds. -/
theorem resume_locks (hstack : th.stack = []) (hm : locks c (mainThread t) s (th.push f)
    (.resume ret) = some m) : m ∉ (th.push f).held c (mainThread t) := by
  have hheld : (th.push f).held c (mainThread t) = f.holds c (mainThread t) := by
    simp [Thread.held, Thread.push, hstack]
  rw [hheld]
  exact Frame.locks_apart hm

theorem Runs.done {e : Returned} (he : s'.returned = e :: s.returned)
    (hrun : (w.alone c t s th).run c (fun _ _ => true) as = some (w.alone c t s' th'))
    (has : GoesOn t ret [] as) : Runs c w t ret asked as.length s th th' (some (e.ptr, s'.heap)) :=
  ⟨[], as, s', e, [], List.nil_prefix, has, Nat.le_refl _, hrun, rfl, rfl, he, Nat.le_refl 0⟩

theorem Runs.mono {k' : Nat} (h : Runs c w t ret asked k s th th' o) (hk : k ≤ k') :
    Runs c w t ret asked k' s th th' o := by
  cases o with
  | some e =>
      obtain ⟨ns, as, s', e', es, hns, has, hlen, hrest⟩ := h
      exact ⟨ns, as, s', e', es, hns, has, Nat.le_trans hlen hk, hrest⟩
  | none =>
      obtain ⟨ns, as, w', hns, has, hlen, hrest⟩ := h
      exact ⟨ns, as, w', hns, has, Nat.le_trans hlen hk, hrest⟩

/-- **Some steps more**, in which `printf` has asked for `ns`. -/
theorem Runs.after (has : GoesOn t ret ns as)
    (hrun : (w.alone c t s th).run c (fun _ _ => true) as = some (w.alone c t s₁ th₁))
    (hreturned : s₁.returned = es ++ s.returned) (hes : es.length ≤ ns.length)
    (h : Runs c w t ret asked k s₁ th₁ th' o) :
    Runs c w t ret (ns ++ asked) (as.length + k) s th th' o := by
  cases o with
  | some e =>
      obtain ⟨ns', as', s', e', es', hns, has', hlen, hrun', hheap, hptr, hreturned', hes'⟩ := h
      refine ⟨ns ++ ns', as ++ as', s', e', es' ++ es, (List.prefix_append_right_inj ns).mpr hns,
        has.append has', ?_, (run_append hrun).trans hrun', hheap, hptr, ?_, ?_⟩
      · rw [List.length_append]
        omega
      · rw [hreturned', hreturned, List.append_assoc]
      · rw [List.length_append, List.length_append]
        omega
  | none =>
      obtain ⟨ns', as', w', hns, has', hlen, hrun', hstuck⟩ := h
      refine ⟨ns ++ ns', as ++ as', w', (List.prefix_append_right_inj ns).mpr hns,
        has.append has', ?_, (run_append hrun).trans hrun', hstuck⟩
      rw [List.length_append]
      omega

/-- **One step more.** -/
theorem Runs.step (hstack : th.stack = [])
    (hstep : resume c (mainThread t) s th ret f = .next s' th₁) (hreturned : s'.returned = s.returned)
    (h : Runs c w t ret asked k s' th₁ th' o) :
    Runs c w t ret asked (k + 1) s (th.push f) th' o := by
  have hnext : (w.alone c t s (th.push f)).run c (fun _ _ => true) [(t, .resume ret)] =
      some (w.alone c t s' th₁) := by
    rw [World.run, if_pos rfl, alone_next (by simp [Thread.ready, Thread.push])
      (fun m => resume_locks hstack) hstep]
    rfl
  have hkept : s'.returned = [] ++ s.returned := hreturned
  have hmore : Runs c w t ret ([] ++ asked) (1 + k) s (th.push f) th' o :=
    Runs.after (.resume .nil) hnext hkept (Nat.le_refl 0) h
  rwa [List.nil_append, Nat.add_comm] at hmore

/-- A function that finishes its call. -/
theorem Runs.last {ptr : Nat} (hstack : th.stack = [])
    (hstep : resume c (mainThread t) s th ret f = .next (s₁.finish c r ptr) th)
    (hreturned : s₁.returned = s.returned) :
    Runs c w t ret asked 1 s (th.push f) th (some (ptr, r.finished c ptr s₁.heap)) := by
  have hnext : (w.alone c t s (th.push f)).run c (fun _ _ => true) [(t, .resume ret)] =
      some (w.alone c t (s₁.finish c r ptr) th) := by
    rw [World.run, if_pos rfl, alone_next (by simp [Thread.ready, Thread.push])
      (fun m => resume_locks hstack) hstep]
    rfl
  rw [← finish_heap]
  exact Runs.done (hreturned ▸ finish_returned) hnext (.resume .nil)

/-- A function that does not return. -/
theorem Runs.stuck (hstack : th.stack = [])
    (hstep : resume c (mainThread t) s th ret f = .never) :
    Runs c w t ret asked k s (th.push f) th' none := by
  have hthread : (w.alone c t s (th.push f)).threads t = th.push f := Function.update_self ..
  refine ⟨[], [], _, List.nil_prefix, .nil, Nat.zero_le k, rfl, ?_, Or.inr ⟨fun m hm => ?_, ?_⟩⟩
  · rw [hthread]
    simp [Thread.ready, Thread.push]
  · rw [hthread] at hm
    exact if_neg (resume_locks hstack hm)
  · rw [hthread]
    exact hstep

/-! ### The report -/

/-- From `s`, with the report of request `r` under way, thread `t` comes back to it in at most
`k` steps that ask for `ns`, and leaves the lists as `store` has them; or it is stuck. -/
def Reports (c : Config) (w : World) (t ret : Nat) (ns : List Nat) (k : Nat) (s : Shared)
    (th : Thread) : Option (Store ListId) → Prop
  | some store => ∃ as s₁ es, GoesOn t ret ns as ∧ as.length ≤ k ∧
      (w.alone c t s th).run c (fun _ _ => true) as = some (w.alone c t s₁ th) ∧
      s₁.heap = { s.heap with store } ∧ s₁.returned = es ++ s.returned ∧ es.length ≤ ns.length
  | none => ∃ ns' as w', ns' <+: ns ∧ GoesOn t ret ns' as ∧ as.length ≤ k ∧
      (w.alone c t s th).run c (fun _ _ => true) as = some w' ∧ Stuck c w' t ret

/-- A `malloc` of the report that comes to the arena. -/
theorem allocate_stuck {r' : Request} (hstack : th.stack = [.printing r .extended])
    (hmanager : r'.manager = r.manager) :
    Stuck c (w.alone c t s (th.push (.allocate r'))) t ret := by
  have hthread : (w.alone c t s (th.push (.allocate r'))).threads t = th.push (.allocate r') :=
    Function.update_self ..
  have harena : r'.arena c (mainThread t) = r.arena c (mainThread t) := by
    unfold Request.arena Request.lm
    rw [hmanager]
  have howner : (w.alone c t s (th.push (.allocate r'))).owner
      (.mtxs (r.arena c (mainThread t))) = some t :=
    if_pos (by simp [Thread.held, Thread.push, hstack, Frame.holds])
  have hready : (th.push (.allocate r')).ready (.resume ret) = true := by
    simp [Thread.ready, Thread.push]
  have hlocks : locks c (mainThread t) s (th.push (.allocate r')) (.resume ret) =
      some (.mtxs (r.arena c (mainThread t))) := congrArg (some <| Mutex.mtxs ·) harena
  refine ⟨by rwa [hthread], Or.inl ⟨.mtxs (r.arena c (mainThread t)), ?_⟩⟩
  rw [World.step, hthread, hready]
  show (if !true then _ else _) = _
  rw [show (w.alone c t s (th.push (.allocate r'))).shared = s from rfl, hlocks]
  simp only [howner, Bool.not_true, Bool.false_eq_true, if_false, if_true]

/-- **A `malloc` of the report**: it takes a block, or waits for the mutex of the report. -/
theorem malloc_reports (hstack : th.stack = [.printing r .extended]) (hlp : th.lp = some r.manager)
    (hstarted : th.started = true) (n : Nat) :
    Reports c w t ret [n] 2 s th ((r.lm c).mallocPrinting c s.heap.store n) := by
  have hfirst : ∀ {s' th'}, act c (mainThread t) s th (.malloc n) = .next s' th' →
      (w.alone c t s th).run c (fun _ _ => true) [(t, .malloc n)] = some (w.alone c t s' th') := by
    intro s' th' hact
    have hready : th.ready (.malloc n) = true := by
      simp [Thread.ready, Thread.prints, hstarted, hstack]
    rw [World.run, if_pos rfl, alone_next hready (fun _ hm => absurd hm (by simp [locks])) hact]
    rfl
  by_cases hn : n = 0
  · subst hn
    have hact : act c (mainThread t) s th (.malloc 0) = .next s th := by
      rw [act, malloc, if_pos rfl]
    rw [mallocPrinting, if_pos rfl]
    exact ⟨_, s, [], .malloc .nil, by simp, hfirst hact, rfl, rfl, Nat.zero_le _⟩
  let r' : Request := ⟨r.manager, n, .malloc⟩
  let own := (r.lm c).mallocOwn s.heap.store n
  have hact : act c (mainThread t) s th (.malloc n) =
      if own.1 ≠ 0 then .next ((s.setStore own.2).finish c r' own.1) th
      else .next (s.setStore own.2) (th.push (.pool r')) := by
    rw [act, malloc, if_neg hn, hlp]
    exact if_neg hn
  rw [mallocPrinting, if_neg hn]
  dsimp only
  by_cases hown : own.1 ≠ 0
  · rw [if_pos hown] at hact
    rw [if_pos hown]
    exact ⟨_, _, [_], .malloc .nil, by simp, hfirst hact,
      (finish_heap _ _ _).trans (if_neg hown), finish_returned, Nat.le_refl 1⟩
  rw [if_neg hown] at hact
  rw [if_neg hown]
  let s₁ := s.setStore own.2
  let pooled := CommonMemoryPool.malloc c own.2 (r.lm c).mallocList (r.lm c).core n
  have hresume : resume c (mainThread t) s₁ th ret (.pool r') =
      if pooled.1 ≠ 0 then .next ((s₁.setStore pooled.2).finish c r' pooled.1) th
      else .next (s₁.setStore pooled.2) (th.push (.allocate r')) := by
    rw [resume]
    rfl
  have hsecond : ∀ {s' th'}, resume c (mainThread t) s₁ th ret (.pool r') = .next s' th' →
      (w.alone c t s th).run c (fun _ _ => true) [(t, .malloc n), (t, .resume ret)] =
        some (w.alone c t s' th') := by
    intro s' th' hnext
    have hlocks : ∀ m, locks c (mainThread t) s₁ (th.push (.pool r')) (.resume ret) = some m →
        m ∉ (th.push (.pool r')).held c (mainThread t) := by
      intro m hm
      obtain rfl := Option.some.inj hm
      simp [Thread.held, Thread.push, hstack, Frame.holds]
    show (w.alone c t s th).run c (fun _ _ => true) ([(t, .malloc n)] ++ [(t, .resume ret)]) = _
    rw [run_append (hfirst hact)]
    rw [World.run, if_pos rfl, alone_next (by simp [Thread.ready, Thread.push]) hlocks hnext]
    rfl
  by_cases hpooled : pooled.1 ≠ 0
  · rw [if_pos hpooled] at hresume
    rw [if_pos hpooled]
    exact ⟨_, _, [_], .malloc (.resume .nil), Nat.le_refl 2, hsecond hresume,
      (finish_heap _ _ _).trans (if_neg hpooled), finish_returned, Nat.le_refl 1⟩
  · rw [if_neg hpooled] at hresume
    rw [if_neg hpooled]
    exact ⟨_, _, _, List.prefix_refl _, .malloc (.resume .nil), Nat.le_refl 2, hsecond hresume,
      allocate_stuck hstack rfl⟩

/-- **The report**, one `malloc` after the other. -/
theorem report_reports (hstack : th.stack = [.printing r .extended]) (hlp : th.lp = some r.manager)
    (hstarted : th.started = true) :
    Reports c w t ret asked (2 * asked.length) s th ((r.lm c).report c asked s.heap.store) := by
  induction asked generalizing s with
  | nil => exact ⟨[], s, [], .nil, Nat.le_refl 0, rfl, rfl, rfl, Nat.le_refl 0⟩
  | cons n asked ih =>
      have hfirst : Reports c w t ret [n] 2 s th ((r.lm c).mallocPrinting c s.heap.store n) :=
        malloc_reports hstack hlp hstarted n
      rw [report, List.foldlM_cons]
      cases hn : (r.lm c).mallocPrinting c s.heap.store n with
      | none =>
          rw [hn] at hfirst
          obtain ⟨ns, as, w', hns, has, hlen, hrun, hstuck⟩ := hfirst
          refine ⟨ns, as, w', hns.trans ?_, has, ?_, hrun, hstuck⟩
          · exact List.prefix_append [n] asked
          · rw [List.length_cons]
            omega
      | some store =>
          rw [hn] at hfirst
          obtain ⟨as, s₁, es, has, hlen, hrun, hheap, hreturned, hes⟩ := hfirst
          have hrest := ih (s := s₁)
          rw [hheap] at hrest
          show Reports c w t ret (n :: asked) _ s th ((r.lm c).report c asked store)
          cases hasked : (r.lm c).report c asked store with
          | none =>
              rw [hasked] at hrest
              obtain ⟨ns, as', w', hns, has', hlen', hrun', hstuck⟩ := hrest
              refine ⟨n :: ns, as ++ as', w', List.cons_prefix_cons.mpr ⟨rfl, hns⟩,
                has.append has', ?_, (run_append hrun).trans hrun', hstuck⟩
              rw [List.length_append, List.length_cons]
              omega
          | some store' =>
              rw [hasked] at hrest
              obtain ⟨as', s₂, es', has', hlen', hrun', hheap', hreturned', hes'⟩ := hrest
              refine ⟨as ++ as', s₂, es' ++ es, has.append has', ?_,
                (run_append hrun).trans hrun', ?_, ?_, ?_⟩
              · rw [List.length_append, List.length_cons]
                omega
              · rw [hheap', hheap]
              · rw [hreturned', hreturned, List.append_assoc]
              · rw [List.length_append, List.length_cons]
                rw [List.length_singleton] at hes
                omega

/-! ### The sections of `Malloc` -/

/-- The section that carves is the last one. -/
theorem serve_runs (hstack : th.stack = []) (hreturned : s'.returned = s.returned)
    (hserve : resume c (mainThread t) s th ret f = serve c s' th r p) :
    Runs c w t ret asked 1 s (th.push f) th (served c s'.heap r p) := by
  unfold serve at hserve
  unfold served
  cases hcarve : s'.heap.carveInto c (r.lm c).mallocList (r.lm c).core r.size (r.n c) p with
  | none =>
      rw [hcarve] at hserve
      exact Runs.stuck hstack hserve
  | some heap =>
      rw [hcarve] at hserve
      exact Runs.last hstack hserve hreturned

/-- **After the report.** -/
theorem reported_runs (hstack : th.stack = [])
    (hrange : s.heap.mm.finishExtended (r.arena c (mainThread t)) (r.mmapSize c) = (p, mm)) :
    Runs c w t ret asked 2 s (th.push (.printing r .reported)) th
      (served c { s.heap with mm } r p) := by
  unfold MmapManager.finishExtended at hrange
  by_cases hrest : s.heap.mm.restSize (r.arena c (mainThread t)) < r.mmapSize c
  · rw [if_pos hrest] at hrange
    obtain ⟨rfl, rfl⟩ := Prod.mk.inj hrange
    have hstep : resume c (mainThread t) s th ret (.printing r .reported) =
        .next s (th.push (.printing r .exhausted)) := by
      simp only [resume, hrest, if_true]
    exact Runs.step hstack hstep rfl (serve_runs hstack rfl rfl)
  · rw [if_neg hrest] at hrange
    have hstep : resume c (mainThread t) s th ret (.printing r .reported) =
        serve c (s.setMm mm) th r p := by
      simp only [resume, hrest, if_false, hrange]
    have hlast : Runs c w t ret asked 1 s (th.push (.printing r .reported)) th
        (served c (s.setMm mm).heap r p) := serve_runs hstack rfl hstep
    exact hlast.mono (Nat.le_succ 1)

/-- What `Malloc` does after the extension that left `mm`: the report, and the rest. -/
def extended (c : Config) (main : Bool) (r : Request) (asked : List Nat) (heap : Process) :
    Option (Nat × Process) :=
  ((r.lm c).report c asked heap.store).bind fun store =>
    let range := heap.mm.finishExtended (r.arena c main) (r.mmapSize c)
    served c { heap with store, mm := range.2 } r range.1

/-- **The extension**, its report and what follows. -/
theorem extended_runs (hstack : th.stack = []) (hlp : th.lp = some r.manager)
    (hstarted : th.started = true) :
    Runs c w t ret asked (2 * asked.length + 4) s (th.push (.printing r .extended)) th
      (extended c (mainThread t) r asked s.heap) := by
  have hpushed : (th.push (.printing r .extended)).stack = [.printing r .extended] := by
    rw [Thread.push, hstack]
  have hreport : Reports c w t ret asked (2 * asked.length) s (th.push (.printing r .extended))
      ((r.lm c).report c asked s.heap.store) := report_reports hpushed hlp hstarted
  unfold extended
  cases hasked : (r.lm c).report c asked s.heap.store with
  | none =>
      rw [hasked] at hreport
      obtain ⟨ns, as, w', hns, has, hlen, hrun, hstuck⟩ := hreport
      exact ⟨ns, as, w', hns, has, by omega, hrun, hstuck⟩
  | some store =>
      rw [hasked] at hreport
      obtain ⟨as, s₁, es, has, hlen, hrun, hheap, hreturned, hes⟩ := hreport
      cases hrange : s₁.heap.mm.finishExtended (r.arena c (mainThread t)) (r.mmapSize c) with
      | mk p mm =>
          have hrest : Runs c w t ret [] 4 s₁ (th.push (.printing r .extended)) th
              (served c { s₁.heap with mm } r p) :=
            Runs.step hstack rfl rfl (Runs.step hstack rfl rfl (reported_runs hstack hrange))
          have hall := (Runs.after has hrun hreturned hes hrest).mono
            (Nat.add_le_add_right hlen 4)
          rw [List.append_nil, hheap] at hall
          rw [hheap] at hrange
          rw [Option.bind_some]
          dsimp only at hrange ⊢
          rw [hrange]
          exact hall

/-- What `Malloc` does from the arena on. -/
def fromArena (c : Config) (main : Bool) (r : Request) (ret : Nat) (asked : List Nat)
    (heap : Process) : Option (Nat × Process) :=
  ((heap.allocate c main (r.lm c).mallocList (r.lm c).core r.size (r.n c) ret
      ((r.lm c).report c asked)).map ((r.lm c).mallocLast · r.size)).map fun e =>
    (e.1, r.finished c e.1 e.2)

/-- **The arena.** -/
theorem allocate_runs (hstack : th.stack = []) (hlp : th.lp = some r.manager)
    (hstarted : th.started = true) :
    Runs c w t ret asked (2 * asked.length + 5) s (th.push (.allocate r)) th
      (fromArena c (mainThread t) r ret asked s.heap) := by
  unfold fromArena Process.allocate
  dsimp only
  rw [show mmapSize c r.size (r.n c) = r.mmapSize c from rfl]
  cases henter : s.heap.mm.enter c (mainThread t) (r.lm c).core (r.mmapSize c) ret with
  | none =>
      refine Runs.stuck hstack ?_
      simp only [resume, henter]
  | some e =>
      obtain ⟨range, mm, touched⟩ := e
      let s₁ : Shared := { s with heap := s.heap.touch mm touched }
      rw [Option.bind_some]
      dsimp only
      cases range with
      | some p =>
          have hstep : resume c (mainThread t) s th ret (.allocate r) = serve c s₁ th r p := by
            simp only [resume, henter, s₁]
          have hlast : Runs c w t ret asked 1 s (th.push (.allocate r)) th
              (served c s₁.heap r p) := serve_runs hstack rfl hstep
          rw [Option.map_map]
          exact hlast.mono (by omega)
      | none =>
          have hstep : resume c (mainThread t) s th ret (.allocate r) =
              .next s₁ (th.push (.printing r .extended)) := by
            simp only [resume, henter, s₁]
          have hrest : Runs c w t ret asked (2 * asked.length + 4) s₁ (th.push (.printing r .extended))
              th (extended c (mainThread t) r asked s₁.heap) := extended_runs hstack hlp hstarted
          have hall : Runs c w t ret asked (2 * asked.length + 5) s (th.push (.allocate r)) th _ :=
            Runs.step hstack hstep rfl hrest
          rw [Option.map_map, Option.map_bind]
          exact hall

/-- **The common pool**, and the arena if it is empty. -/
theorem pool_runs (hstack : th.stack = []) (hlp : th.lp = some r.manager)
    (hstarted : th.started = true) :
    let pooled := CommonMemoryPool.malloc c s.heap.store (r.lm c).mallocList (r.lm c).core r.size
    Runs c w t ret asked (2 * asked.length + 6) s (th.push (.pool r)) th
      (if pooled.1 ≠ 0 then some (pooled.1, r.finished c pooled.1 (s.setStore pooled.2).heap)
        else fromArena c (mainThread t) r ret asked (s.setStore pooled.2).heap) := by
  intro pooled
  by_cases hpooled : pooled.1 ≠ 0
  · have hstep : resume c (mainThread t) s th ret (.pool r) =
        .next ((s.setStore pooled.2).finish c r pooled.1) th := by
      rw [resume]
      exact if_pos hpooled
    rw [if_pos hpooled]
    exact (Runs.last hstack hstep rfl).mono (by omega)
  · have hstep : resume c (mainThread t) s th ret (.pool r) =
        .next (s.setStore pooled.2) (th.push (.allocate r)) := by
      rw [resume]
      exact if_neg hpooled
    rw [if_neg hpooled]
    exact Runs.step hstack hstep rfl (allocate_runs hstack hlp hstarted)

/-! ### The flush -/

/-- One round. -/
theorem flush_round {j : Nat} (hstack : th.stack = [])
    (hstep : resume c (mainThread t) s th ret (.flush j n) =
      .next (s.setStore ((managerPools c j).flushCore s.heap.store n)) th') :
    (w.alone c t s (th.push (.flush j n))).run c (fun _ _ => true) [(t, .resume ret)] =
      some (w.alone c t (s.setStore ((managerPools c j).flushCore s.heap.store n)) th') := by
  have hact : act c (mainThread t) s (th.push (.flush j n)) (.resume ret) =
      .next (s.setStore ((managerPools c j).flushCore s.heap.store n)) th' := hstep
  rw [World.run, if_pos rfl, alone_next (by simp [Thread.ready, Thread.push])
    (fun m => resume_locks hstack) hact]
  rfl

/-- **Round by round**, `AllFreeToCommonMemoryPool` comes to core `n` with what its loop has made
of the lists. -/
theorem flush_rounds {j : Nat} (hstack : th.stack = []) (hn : n < (managerPools c j).coreN) :
    (w.alone c t s (th.push (.flush j 0))).run c (fun _ _ => true)
      (List.replicate n (t, .resume ret)) =
      some (w.alone c t (s.setStore (forRange n
        (fun i store => (managerPools c j).flushCore store i) s.heap.store))
        (th.push (.flush j n))) := by
  induction n with
  | zero => rfl
  | succ n ih =>
      rw [List.replicate_succ', run_append (ih (Nat.lt_of_succ_lt hn)),
        flush_round hstack (congrArg (Result.next _) (if_pos hn))]
      rfl

/-- **The whole flush** is what `AllFreeToCommonMemoryPool` does from start to end. -/
theorem flush_runs {j : Nat} (hstack : th.stack = []) (hcores : 0 < (managerPools c j).coreN) :
    (w.alone c t s (th.push (.flush j 0))).run c (fun _ _ => true)
      (List.replicate (managerPools c j).coreN (t, .resume ret)) =
      some (w.alone c t
        (s.setStore ((managerPools c j).allFreeToCommonMemoryPool s.heap.store)) th) := by
  obtain ⟨n, hn⟩ := Nat.exists_eq_succ_of_ne_zero hcores.ne'
  have hlast : ¬ n + 1 < (managerPools c j).coreN := by omega
  rw [LocalMemoryManager.allFreeToCommonMemoryPool, hn, List.replicate_succ',
    run_append (flush_rounds hstack (by omega)),
    flush_round hstack (congrArg (Result.next _) (if_neg hlast))]
  rfl

end Runs

/-! ### The calls -/

/-- The history has `ptr` as the last pointer returned. The null pointer for no bytes at all is
not recorded. -/
def Records (s s' : Shared) (ptr : Nat) : Prop :=
  (ptr = 0 ∧ s'.returned = s.returned) ∨
    ∃ e es, e.ptr = ptr ∧ s'.returned = e :: (es ++ s.returned)

section Calls

variable {c : Config} {w : World} {s : Shared} {th : Thread} {r : Request} {t j ret : Nat}
  {asked : List Nat} {call : Call}

/-- A call that returns at once. -/
def Call.Returns (c : Config) (t ret : Nat) (asked : List Nat) (s : Shared) (th : Thread) (j : Nat)
    (call : Call) : Prop :=
  ∃ ptr s', act c (mainThread t) s th call.action = .next s' th ∧ Records s s' ptr ∧
    call.run c (mainThread t) (managerPools c j) s.heap ret asked = some (ptr, s'.heap)

/-- A call that comes to the common pool. -/
def Call.ComesToPool (c : Config) (w : World) (t ret : Nat) (asked : List Nat) (s : Shared)
    (th : Thread) (j : Nat) (call : Call) : Prop :=
  ∃ s' f, act c (mainThread t) s th call.action = .next s' (th.push f) ∧
    s'.returned = s.returned ∧
    Runs c w t ret asked (2 * asked.length + 6) s' (th.push f) th
      (call.run c (mainThread t) (managerPools c j) s.heap ret asked)

/-- **A call of `Malloc`.** -/
theorem enterMalloc_cases (hstack : th.stack = []) (hlp : th.lp = some j)
    (hstarted : th.started = true) (hmanager : r.manager = j) (hsize : r.size ≠ 0)
    (hact : act c (mainThread t) s th call.action = enterMalloc c s th r)
    (hcall : call.run c (mainThread t) (managerPools c j) s.heap ret asked =
      ((r.lm c).malloc c (mainThread t) s.heap r.size ret asked).map fun e =>
        (e.1, r.finished c e.1 e.2)) :
    call.Returns c t ret asked s th j ∨ call.ComesToPool c w t ret asked s th j := by
  rw [enterMalloc, if_neg hsize] at hact
  dsimp only at hact
  rw [LocalMemoryManager.malloc, if_neg hsize] at hcall
  dsimp only at hcall
  by_cases hown : ((r.lm c).mallocOwn s.heap.store r.size).1 ≠ 0
  · rw [if_pos hown] at hact hcall
    refine Or.inl ⟨_, _, hact, Or.inr ⟨_, [], rfl, finish_returned⟩, hcall.trans ?_⟩
    rw [finish_heap]
    rfl
  · rw [if_neg hown] at hact hcall
    let s₁ := s.setStore ((r.lm c).mallocOwn s.heap.store r.size).2
    have hpool : Runs c w t ret asked (2 * asked.length + 6) s₁ (th.push (.pool r)) th _ :=
      pool_runs hstack (hlp.trans (congrArg some hmanager.symm)) hstarted
    refine Or.inr ⟨_, _, hact, rfl, ?_⟩
    rw [hcall, apply_ite (Option.map _)]
    exact hpool

theorem malloc_cases (hstack : th.stack = []) (hlp : th.lp = some j) (hstarted : th.started = true)
    (size : Nat) :
    (Call.malloc size).Returns c t ret asked s th j ∨
      (Call.malloc size).ComesToPool c w t ret asked s th j := by
  by_cases hsize : size = 0
  · exact Or.inl ⟨0, s, if_pos hsize, Or.inl ⟨rfl, rfl⟩, if_pos hsize⟩
  · refine enterMalloc_cases (r := ⟨j, size, .malloc⟩) hstack hlp hstarted rfl hsize ?_ ?_
    · rw [Call.action, act, malloc, if_neg hsize, hlp]
    · rw [Call.run, Api.malloc, if_neg hsize]
      simp only [Request.finished, ite_self]
      exact Option.map_id'.symm

theorem calloc_cases (hstack : th.stack = []) (hlp : th.lp = some j) (hstarted : th.started = true)
    (nmemb size : Nat) :
    (Call.calloc nmemb size).Returns c t ret asked s th j ∨
      (Call.calloc nmemb size).ComesToPool c w t ret asked s th j := by
  by_cases hzero : nmemb = 0 ∨ size = 0
  · exact Or.inl ⟨0, s, if_pos hzero, Or.inl ⟨rfl, rfl⟩, if_pos hzero⟩
  have hact : act c (mainThread t) s th (.calloc nmemb size) =
      malloc c s th (u64 (nmemb * size)) .calloc := if_neg hzero
  have hrun : (Call.calloc nmemb size).run c (mainThread t) (managerPools c j) s.heap ret asked =
      (Api.malloc c (mainThread t) (managerPools c j) s.heap (u64 (nmemb * size)) ret asked).map
        fun r => if r.1 ≠ 0 then
            (r.1, r.2.setMem (fill r.2.store.mem r.1 (u64 (nmemb * size)) 0))
          else r := if_neg hzero
  by_cases htotal : u64 (nmemb * size) = 0
  · refine Or.inl ⟨0, s, hact.trans (if_pos htotal), Or.inl ⟨rfl, rfl⟩, ?_⟩
    rw [hrun, Api.malloc, if_pos htotal]
    rfl
  · refine enterMalloc_cases (r := ⟨j, u64 (nmemb * size), .calloc⟩) hstack hlp hstarted rfl
      htotal ?_ ?_
    · rw [Call.action, hact, malloc, if_neg htotal, hlp]
    · rw [hrun, Api.malloc, if_neg htotal]
      refine congrArg (Option.map · _) (funext fun e => ?_)
      simp only [Request.finished, ite_not]
      split <;> rfl

theorem realloc_cases (hstack : th.stack = []) (hlp : th.lp = some j)
    (hstarted : th.started = true) (ptr size : Nat) :
    (Call.realloc ptr size).Returns c t ret asked s th j ∨
      (Call.realloc ptr size).ComesToPool c w t ret asked s th j := by
  by_cases hptr : ptr = 0
  · have hact : act c (mainThread t) s th (.realloc ptr size) =
        act c (mainThread t) s th (.malloc size) := if_pos hptr
    have hrun : (Call.realloc ptr size).run c (mainThread t) (managerPools c j) s.heap ret asked =
        (Call.malloc size).run c (mainThread t) (managerPools c j) s.heap ret asked := if_pos hptr
    unfold Call.Returns Call.ComesToPool
    rw [hrun, Call.action, hact]
    exact malloc_cases hstack hlp hstarted size
  let preSize := MemUtil.ptrToSize s.heap.store.mem ptr
  by_cases hle : size ≤ preSize
  · refine Or.inl ⟨ptr, { s with returned := ⟨none, size, ptr⟩ :: s.returned }, ?_,
      Or.inr ⟨_, [], rfl, rfl⟩, ?_⟩
    · rw [Call.action, act, realloc, if_neg hptr, hlp]
      exact if_pos hle
    · rw [Call.run, Api.realloc, if_neg hptr, LocalMemoryManager.realloc, if_neg hptr]
      exact if_pos hle
  · refine enterMalloc_cases (r := ⟨j, size, .realloc ptr preSize⟩) hstack hlp hstarted rfl
      (show size ≠ 0 by omega) ?_ ?_
    · rw [Call.action, act, realloc, if_neg hptr, hlp]
      exact if_neg hle
    · rw [Call.run, Api.realloc, if_neg hptr, LocalMemoryManager.realloc, if_neg hptr]
      refine (if_neg hle).trans (congrArg (Option.map · _) (funext fun e => ?_))
      simp only [Request.finished, ite_not]
      split
      case isTrue hnull => rw [hnull]
      case isFalse => rfl

theorem call_cases (hstack : th.stack = []) (hlp : th.lp = some j) (hstarted : th.started = true)
    (call : Call) : call.Returns c t ret asked s th j ∨ call.ComesToPool c w t ret asked s th j := by
  cases call with
  | malloc size => exact malloc_cases hstack hlp hstarted size
  | calloc nmemb size => exact calloc_cases hstack hlp hstarted nmemb size
  | realloc ptr size => exact realloc_cases hstack hlp hstarted ptr size

/-- The first step, when no mutex is held. -/
theorem call_begins (hstarted : (w.threads t).started = true) (hstack : (w.threads t).stack = [])
    (howner : ∀ m, w.owner m = none)
    (hact : act c (mainThread t) w.shared (w.threads t) call.action = .next s th) :
    w.step c t call.action = .next (w.alone c t s th) := by
  have hready : (w.threads t).ready call.action = true := by
    cases call <;> simp [Call.action, Thread.ready, hstarted, hstack]
  have hlocks : locks c (mainThread t) w.shared (w.threads t) call.action = none := by
    cases call <;> rfl
  have hcommit : w.commit c t s th = w.alone c t s th := by
    simp only [World.commit, World.alone, howner, reduceCtorEq, if_false]
  rw [World.step, hready, hlocks, World.go, hact, ← hcommit]
  rfl

end Calls

/-- **Undisturbed calls.** In every world in which no mutex is held, a `malloc`, `calloc` or
`realloc` whose thread alone takes steps does what it does from start to end, for everything
its `printf` may ask for: it comes back in boundedly many steps with the same pointer, the same
process and nothing locked, or it comes to where it is stuck. -/
theorem undisturbed_call (c : Config) (w : World) (t ret j : Nat) (asked : List Nat) (call : Call)
    (hstarted : (w.threads t).started = true) (hstack : (w.threads t).stack = [])
    (hlp : (w.threads t).lp = some j) (howner : ∀ m, w.owner m = none) :
    (∀ ptr heap,
      call.run c (mainThread t) (managerPools c j) w.shared.heap ret asked = some (ptr, heap) →
      ∃ ns as s, ns <+: asked ∧ GoesOn t ret ns as ∧ as.length ≤ 2 * asked.length + 6 ∧
        w.run c (fun _ _ => true) ((t, call.action) :: as) = some { w with shared := s } ∧
        s.heap = heap ∧ Records w.shared s ptr) ∧
    (call.run c (mainThread t) (managerPools c j) w.shared.heap ret asked = none →
      ∃ ns as w', ns <+: asked ∧ GoesOn t ret ns as ∧ as.length ≤ 2 * asked.length + 6 ∧
        w.run c (fun _ _ => true) ((t, call.action) :: as) = some w' ∧ Stuck c w' t ret) := by
  have halone : ∀ s, w.alone c t s (w.threads t) = { w with shared := s } := by
    intro s
    have hheld : (w.threads t).held c (mainThread t) = [] := by rw [Thread.held, hstack]; rfl
    have howner' : w.owner = fun _ => none := funext howner
    simp only [World.alone, hheld, Function.update_eq_self, List.not_mem_nil, if_false, howner']
  have hbegin : ∀ s th as, act c (mainThread t) w.shared (w.threads t) call.action = .next s th →
      w.run c (fun _ _ => true) ((t, call.action) :: as) =
        (w.alone c t s th).run c (fun _ _ => true) as := by
    intro s th as hact
    rw [World.run, call_begins hstarted hstack howner hact]
    rfl
  obtain ⟨ptr, s, hact, hrecords, hrun⟩ | ⟨s, f, hact, hreturned, hruns⟩ :=
    call_cases (w := w) hstack hlp hstarted call
  · rw [hrun]
    constructor
    · intro ptr' heap heq
      obtain ⟨rfl, rfl⟩ := Prod.mk.inj (Option.some.inj heq)
      exact ⟨[], [], s, List.nil_prefix, .nil, Nat.zero_le _,
        (hbegin s _ [] hact).trans (congrArg some (halone s)), rfl, hrecords⟩
    · exact fun hnone => absurd hnone (by simp)
  constructor
  · intro ptr heap hcall
    rw [hcall] at hruns
    obtain ⟨ns, as, s', e, es, hns, has, hlen, hrun, hheap, hptr, hes, -⟩ := hruns
    exact ⟨ns, as, s', hns, has, hlen,
      (hbegin s _ as hact).trans (hrun.trans (congrArg some (halone s'))), hheap,
      Or.inr ⟨e, es, hptr, hes.trans (by rw [hreturned])⟩⟩
  · intro hcall
    rw [hcall] at hruns
    obtain ⟨ns, as, w', hns, has, hlen, hrun, hstuck⟩ := hruns
    exact ⟨ns, as, w', hns, has, hlen, (hbegin s _ as hact).trans hrun, hstuck⟩

end Undisturbed

/-- Thread 1 has started on core 0. -/
theorem threadStart_made : ((World.init MmapManager.oneCore MmapManager.oneCoreBase fun _ => 0).run
    MmapManager.oneCore (allocates MmapManager.oneCore 1) [(1, .start 0)]).isSome = true := by
  decide +kernel

/-- Thread 1 has called `malloc` once, and its second call needs an extension. If the `printf` of
the report asks for 64 KB the call comes back; if it asks for 1 KB, of which the manager has no
block, it is stuck. -/
theorem undisturbed_call_threadStart : ∃ w : World,
    (∃ ns as s, ns <+: [65536] ∧ GoesOn 1 0x810000000000 ns as ∧ as.length ≤ 8 ∧
      w.run MmapManager.oneCore (fun _ _ => true) ((1, .malloc (2 ^ 27)) :: as) =
        some { w with shared := s } ∧ Records w.shared s 141836999983152) ∧
    ∃ ns as w', ns <+: [1024] ∧ GoesOn 1 0x810000000000 ns as ∧ as.length ≤ 8 ∧
      w.run MmapManager.oneCore (fun _ _ => true) ((1, .malloc (2 ^ 27)) :: as) = some w' ∧
      Stuck MmapManager.oneCore w' 1 0x810000000000 := by
  let w := Option.get _ threadStart_made
  let first := (Call.malloc 65536).run MmapManager.oneCore (mainThread 1)
    (managerPools MmapManager.oneCore 0) w.shared.heap 0 []
  let second := fun asked heap => (Call.malloc (2 ^ 27)).run MmapManager.oneCore (mainThread 1)
    (managerPools MmapManager.oneCore 0) heap 0x810000000000 asked
  have hreturns : (first.bind fun e => second [65536] e.2).map Prod.fst =
      some 141836999983152 := by decide +kernel
  have hstuck : (first.bind fun e => second [1024] e.2).map Prod.fst = none := by decide +kernel
  have hstarted : (w.threads 1).started = true := by decide +kernel
  have hstack : (w.threads 1).stack = [] := by decide +kernel
  have hlp : (w.threads 1).lp = some 0 := by decide +kernel
  obtain ⟨⟨_, heap'⟩, hboth, rfl⟩ := Option.map_eq_some_iff.mp hreturns
  obtain ⟨⟨ptr, heap⟩, hfirst, hsecond⟩ := Option.bind_eq_some_iff.mp hboth
  obtain ⟨-, -, s, -, -, -, -, rfl, -⟩ := (undisturbed_call MmapManager.oneCore w 1 0 0 []
    (.malloc 65536) hstarted hstack hlp fun _ => rfl).1 _ _ hfirst
  rw [hfirst] at hstuck
  obtain ⟨ns, as, s', hns, has, hlen, hrun, -, hrecords⟩ :=
    (undisturbed_call MmapManager.oneCore { w with shared := s } 1 0x810000000000 0 [65536]
      (.malloc (2 ^ 27)) hstarted hstack hlp fun _ => rfl).1 _ _ hsecond
  exact ⟨_, ⟨ns, as, s', hns, has, hlen, hrun, hrecords⟩,
    (undisturbed_call MmapManager.oneCore { w with shared := s } 1 0x810000000000 0 [1024]
      (.malloc (2 ^ 27)) hstarted hstack hlp fun _ => rfl).2 (Option.map_eq_none_iff.mp hstuck)⟩

end FCMalloc.Machine
