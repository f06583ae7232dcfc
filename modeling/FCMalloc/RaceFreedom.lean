import FCMalloc.EndToEnd
import FCMalloc.LeaseRefinement
import FCMalloc.Placement
import FCMalloc.QueueFrames

/-!
# FCMalloc.RaceFreedom

What two threads can work on at the same time without a common mutex: the counter
`extendOffset_`, which every extension moves on, and the sizes of the arenas in `debugSizes_` and
`debugOffsets_`, which a report reads of all of them. The two are races of the code: in both a
section runs under the mutex of its own arena, and works on more than that arena.

The machine makes a step of each section between two mutex operations, which is only right
if sections that no mutex keeps apart do not meet. A `Resource` is a part of the shared state,
`Action.Works` says which of them a step may read or write, and `act_same` that it leaves
the others as they are. The locks a section runs under are its `guards`. A list is touched
under a lease, or under the mutex of its pool, or, if it belongs to an idle manager, under
`mtx_` (`Guarded`); leases are exclusive, so that two threads with one list have one mutex.
-/

namespace FCMalloc

open GlobalMemoryManager LocalMemoryManager Leasing

/-- The entries of an arena are the same, those for debugging apart. -/
structure MmapManager.SameArena (mm mm' : MmapManager) (x : Nat) : Prop where
  pools : mm'.pools x = mm.pools x
  sizes : mm'.sizes x = mm.sizes x
  offsets : mm'.offsets x = mm.offsets x
  firstTouchFlag : mm'.firstTouchFlag x = mm.firstTouchFlag x

/-- So are those for debugging. -/
structure MmapManager.SameDebug (mm mm' : MmapManager) (x : Nat) : Prop where
  debugSizes : mm'.debugSizes x = mm.debugSizes x
  debugOffsets : mm'.debugOffsets x = mm.debugOffsets x

/-- The record of the extensions is the same. -/
structure MmapManager.SameRecord (mm mm' : MmapManager) : Prop where
  extendOffset : mm'.extendOffset = mm.extendOffset
  sizess : mm'.sizess = mm.sizess
  poolss : mm'.poolss = mm.poolss

namespace MmapManager

variable {c : Config} {main : Bool} {mm mm' : MmapManager} {core size ret x : Nat}
  {served : Option Nat} {touched : List Nat}

theorem SameArena.refl : mm.SameArena mm x := ⟨rfl, rfl, rfl, rfl⟩

theorem SameDebug.refl : mm.SameDebug mm x := ⟨rfl, rfl⟩

theorem SameRecord.refl : mm.SameRecord mm := ⟨rfl, rfl, rfl⟩

theorem serve_sameArena (hx : x ≠ core) :
    mm.SameArena (mm.serve core size).2 x ∧ mm.SameDebug (mm.serve core size).2 x :=
  ⟨⟨rfl, rfl, Function.update_of_ne hx _ _, rfl⟩, rfl, Function.update_of_ne hx _ _⟩

theorem serve_sameRecord : mm.SameRecord (mm.serve core size).2 := ⟨rfl, rfl, rfl⟩

/-- `Malloc` works on its own arena only. -/
theorem enter_sameArena (h : enter c main mm core size ret = some (served, mm', touched))
    (hx : x ≠ c.arena main core) : mm.SameArena mm' x ∧ mm.SameDebug mm' x := by
  unfold enter at h
  obtain ⟨⟨mm₁, w⟩, ht, hr⟩ := Option.map_eq_some_iff.mp h
  dsimp only at ht hr
  have htouch : mm.SameArena mm₁ x ∧ mm.SameDebug mm₁ x := by
    obtain ⟨-, rfl, -⟩ | ⟨-, -, rfl⟩ := touchOnce_cases ht
    · exact ⟨.refl, .refl⟩
    · exact ⟨⟨rfl, rfl, rfl, Function.update_of_ne hx _ _⟩, rfl, rfl⟩
  obtain ⟨⟨hpools, hsizes, hoffsets, hflag⟩, hdebug, hdebug'⟩ := htouch
  split at hr
  · obtain ⟨-, hr⟩ := Prod.mk.inj hr
    obtain ⟨rfl, -⟩ := Prod.mk.inj hr
    exact ⟨⟨(Function.update_of_ne hx _ _).trans hpools, (Function.update_of_ne hx _ _).trans hsizes,
      (Function.update_of_ne hx _ _).trans hoffsets, hflag⟩,
      (Function.update_of_ne hx _ _).trans hdebug, hdebug'⟩
  · obtain ⟨-, hr⟩ := Prod.mk.inj hr
    obtain ⟨rfl, -⟩ := Prod.mk.inj hr
    exact ⟨⟨hpools, hsizes, (Function.update_of_ne hx _ _).trans hoffsets, hflag⟩, hdebug,
      (Function.update_of_ne hx _ _).trans hdebug'⟩

/-- Only an extension is recorded. -/
theorem enter_sameRecord (h : enter c main mm core size ret = some (served, mm', touched))
    (hfits : mm.needsExtension c (c.arena main core) size = false) : mm.SameRecord mm' := by
  unfold enter at h
  obtain ⟨⟨mm₁, w⟩, ht, hr⟩ := Option.map_eq_some_iff.mp h
  dsimp only at ht hr
  obtain ⟨hsizes, hoffsets, -, -, -⟩ := touchOnce_frame ht
  have htouch : mm.SameRecord mm₁ := by
    obtain ⟨-, rfl, -⟩ | ⟨-, -, rfl⟩ := touchOnce_cases ht
    · exact .refl
    · exact ⟨rfl, rfl, rfl⟩
  have hfits' : mm₁.needsExtension c (c.arena main core) size = false := by
    rw [needsExtension, restSize, hsizes, hoffsets]
    exact hfits
  rw [if_neg (by simp [hfits'])] at hr
  obtain ⟨-, hr⟩ := Prod.mk.inj hr
  obtain ⟨rfl, -⟩ := Prod.mk.inj hr
  exact ⟨htouch.extendOffset, htouch.sizess, htouch.poolss⟩

end MmapManager

namespace Leasing

variable {c : Config} {l : ListId} {j j' : Nat}

/-- Two managers have no list in common, and none is a pool. -/
theorem ListOf.manager_eq (h : ListOf c j l) (h' : ListOf c j' l) (hj : j < managerN c)
    (hj' : j' < managerN c) : j = j' := by
  obtain rfl | ⟨k, hk, rfl⟩ := h
  · obtain heq | ⟨k', hk', heq⟩ := h'
    · exact mallocList_inj hj hj' heq
    · exact absurd heq (mallocList_ne_freeLists hj hj' hk')
  · obtain heq | ⟨k', hk', heq⟩ := h'
    · exact absurd heq.symm (mallocList_ne_freeLists hj' hj hk)
    · exact (freeLists_inj hj hj' hk hk' heq).1

theorem ListOf.ne_pool (h : ListOf c j l) (hj : j < managerN c) (k : Nat) :
    l ≠ .poolsPerCore k := by
  obtain rfl | ⟨k', hk', rfl⟩ := h
  · exact mallocList_ne_pool
  · exact freeLists_ne_pool hj hk'

end Leasing

namespace Machine

open ByteMemory

/-- A part of the shared state. -/
inductive Resource
  /-- `heads_` and `lasts_` of a list, and the links of its blocks. -/
  | list (l : ListId)
  /-- The entries of an arena in the arrays of `MmapManager`, those for debugging apart. -/
  | arena (x : Nat)
  /-- `debugSizes_` and `debugOffsets_` of an arena. -/
  | debug (x : Nat)
  /-- `extendOffset_`, with `sizess_` and `poolss_`. -/
  | record
  /-- `poolFlags_` and the two offsets. -/
  | leases

/-- Whether a function extends its arena when it goes on. -/
def Frame.Extends (c : Config) (main : Bool) (s : Shared) : Frame → Prop
  | .allocate r => s.heap.mm.needsExtension c (r.arena c main) (r.mmapSize c) = true
  | _ => False

/-- Whether a step extends an arena. -/
def Action.Extends (c : Config) (main : Bool) (s : Shared) (th : Thread) : Action → Prop
  | .resume _ => ∃ f, th.stack.head? = some f ∧ f.Extends c main s
  | _ => False

/-- Whether a function is in `DebugPrintWithNoMalloc` or goes on with it. -/
def Frame.Shows (c : Config) (main : Bool) (s : Shared) (f : Frame) : Prop :=
  .debugMtx ∈ f.holds c main ∨ f.locks c main s = some .debugMtx

/-- Whether a step is part of `DebugPrintWithNoMalloc`. -/
def Action.Shows (c : Config) (main : Bool) (s : Shared) (th : Thread) : Action → Prop
  | .resume _ => ∃ f, th.stack.head? = some f ∧ f.Shows c main s
  | _ => False

/-- Whether a step leases a manager or takes one back. -/
def Action.Leases (th : Thread) : Action → Prop
  | .start _ => True
  | .exit => th.lp ≠ none
  | .free ptr => ptr ≠ 0 ∧ th.lp = none
  | .resume _ => ∃ j, th.stack.head? = some (.release j)
  | _ => False

/-- **What a step works on.** -/
def Action.Works (c : Config) (main : Bool) (s : Shared) (th : Thread) (a : Action) :
    Resource → Prop
  | .list l => a.Touches c s th l
  | .arena x => a.arena c main th = some x
  -- the report shows every arena
  | .debug x => a.arena c main th = some x ∨ a.Shows c main s th
  | .record => a.Extends c main s th
  | .leases => a.Leases th

/-- The mutexes a step runs under: those its thread holds, and the one it locks. -/
def guards (c : Config) (w : World) (t : Nat) (a : Action) : List Mutex :=
  (w.threads t).held c (mainThread t) ++
    (locks c (mainThread t) w.shared (w.threads t) a).toList

/-- A resource is the same in two states. -/
def Same (x : Resource) (w w' : World) : Prop :=
  match x with
  | .list l => ∀ q q', w.Lists q → w'.Lists q' → ∀ i, q' (l, i) = q (l, i)
  | .arena x => w.shared.heap.mm.SameArena w'.shared.heap.mm x
  | .debug x => w.shared.heap.mm.SameDebug w'.shared.heap.mm x
  | .record => w.shared.heap.mm.SameRecord w'.shared.heap.mm
  | .leases => w'.shared.heap.g = w.shared.heap.g

/-- **What no mutex protects**: the record, where two arenas are extended, and what a report shows
of an arena that is not its own. -/
def Unguarded (c : Config) (w : World) (t t' : Nat) (a a' : Action) : Resource → Prop
  | .record => a.arena c (mainThread t) (w.threads t) ≠ a'.arena c (mainThread t') (w.threads t')
  | .debug _ => a.arena c (mainThread t) (w.threads t) ≠ a'.arena c (mainThread t') (w.threads t') ∧
      ¬ (.debugMtx ∈ guards c w t a ∧ .debugMtx ∈ guards c w t' a')
  | .list _ | .arena _ | .leases => False

/-! ### What a step leaves alone -/

section Frame

variable {c : Config} {base : Nat → Nat} {main : Bool} {s s' : Shared} {th th' : Thread}
  {r : Request} {a : Action} {w w' : World} {t ret : Nat} {x : Resource}

theorem enterMalloc_mm (h : enterMalloc c s th r = .next s' th') : s'.heap.mm = s.heap.mm := by
  obtain ⟨-, rfl, -⟩ | ⟨-, -, -, rfl⟩ | ⟨-, -, -, rfl⟩ := enterMalloc_next h
  · exact finish_mm 0
  · exact finish_mm _
  · rfl

theorem malloc_mm {size : Nat} {caller : Caller} (h : malloc c s th size caller = .next s' th') :
    s'.heap.mm = s.heap.mm := by
  obtain ⟨-, rfl, -⟩ | ⟨j, -, -, henter⟩ := malloc_next h
  · rfl
  · exact enterMalloc_mm henter

theorem resume_mm {f : Frame} (h : resume c main s th ret f = .next s' th') :
    s'.heap.mm = s.heap.mm ∨
    (∃ r served touched, f = .allocate r ∧ s.heap.mm.enter c main (r.lm c).core (r.mmapSize c) ret =
      some (served, s'.heap.mm, touched)) ∨
    ∃ r, f = .printing r .reported ∧
      s'.heap.mm = (s.heap.mm.serve (r.arena c main) (r.mmapSize c)).2 := by
  cases f with
  | pool r =>
      obtain ⟨-, rfl, -⟩ | ⟨-, rfl, -⟩ := resume_pool h
      · exact Or.inl (finish_mm _)
      · exact Or.inl rfl
  | allocate r =>
      obtain ⟨served, mm, touched, henter, ⟨p, -, hserve⟩ | ⟨-, rfl, -⟩⟩ := resume_allocate h
      · refine Or.inr (Or.inl ⟨r, served, touched, rfl, ?_⟩)
        rw [serve_mm hserve]
        exact henter
      · exact Or.inr (Or.inl ⟨r, served, touched, rfl, henter⟩)
  | printing r phase =>
      cases phase with
      | extended | reporting =>
          obtain ⟨rfl, -⟩ := Result.next.inj h
          exact Or.inl rfl
      | reported =>
          obtain ⟨-, rfl, -⟩ | ⟨-, hserve⟩ := resume_reported h
          · exact Or.inl rfl
          · exact Or.inr (Or.inr ⟨r, rfl, serve_mm hserve⟩)
      | exhausted => exact Or.inl (serve_mm h)
  | freeing j ptr | release j | flush j i =>
      obtain ⟨rfl, -⟩ := Result.next.inj h
      exact Or.inl rfl

/-- **The arenas change** in `MmapManager::Malloc` only. -/
theorem act_mm (h : act c main s th a = .next s' th') :
    s'.heap.mm = s.heap.mm ∨
    (∃ ret r served touched, a = .resume ret ∧ th.stack.head? = some (.allocate r) ∧
      s.heap.mm.enter c main (r.lm c).core (r.mmapSize c) ret =
        some (served, s'.heap.mm, touched)) ∨
    ∃ ret r, a = .resume ret ∧ th.stack.head? = some (.printing r .reported) ∧
      s'.heap.mm = (s.heap.mm.serve (r.arena c main) (r.mmapSize c)).2 := by
  cases a with
  | start core =>
      obtain ⟨rfl, -⟩ := Result.next.inj h
      exact Or.inl rfl
  | exit =>
      rw [act, threadTerm] at h
      split at h <;> obtain ⟨rfl, -⟩ := Result.next.inj h <;> exact Or.inl rfl
  | malloc size => exact Or.inl (malloc_mm h)
  | calloc nmemb size =>
      obtain ⟨rfl, -⟩ | ⟨j, -, -, henter⟩ := calloc_next h
      · exact Or.inl rfl
      · exact Or.inl (enterMalloc_mm henter)
  | realloc ptr size =>
      obtain ⟨-, hmalloc⟩ | ⟨-, -, -, rfl⟩ | ⟨j, -, -, -, henter⟩ := realloc_next h
      · exact Or.inl (malloc_mm hmalloc)
      · exact Or.inl rfl
      · exact Or.inl (enterMalloc_mm henter)
  | free ptr =>
      obtain ⟨-, rfl, -⟩ | ⟨-, -, hlate⟩ | ⟨j, -, -, rfl, -⟩ := free_next h
      · exact Or.inl rfl
      · obtain ⟨j, -, -, rfl⟩ := lateFree_next hlate
        exact Or.inl rfl
      · exact Or.inl rfl
  | allFree =>
      obtain ⟨j, -, rfl, -⟩ := allFree_next h
      exact Or.inl rfl
  | store addr v =>
      obtain ⟨rfl, -⟩ := Result.next.inj h
      exact Or.inl rfl
  | resume ret =>
      rw [act] at h
      split at h
      · exact absurd h (by simp)
      case h_2 f rest hstack =>
        have hhead : th.stack.head? = some f := by rw [hstack, List.head?_cons]
        obtain hmm | ⟨r, served, touched, rfl, henter⟩ | ⟨r, rfl, hmm⟩ := resume_mm h
        · exact Or.inl hmm
        · exact Or.inr (Or.inl ⟨ret, r, served, touched, rfl, hhead, henter⟩)
        · exact Or.inr (Or.inr ⟨ret, r, rfl, hhead, hmm⟩)

theorem act_sameArena (h : act c main s th a = .next s' th') {x : Nat}
    (hx : a.arena c main th ≠ some x) :
    s.heap.mm.SameArena s'.heap.mm x ∧ s.heap.mm.SameDebug s'.heap.mm x := by
  obtain hmm | ⟨ret, r, served, touched, rfl, hhead, henter⟩ | ⟨ret, r, rfl, hhead, hmm⟩ := act_mm h
  · rw [hmm]
    exact ⟨.refl, .refl⟩
  · refine MmapManager.enter_sameArena henter ?_
    rintro rfl
    exact hx (by rw [Action.arena, hhead]; rfl)
  · rw [hmm]
    refine MmapManager.serve_sameArena ?_
    rintro rfl
    exact hx (by rw [Action.arena, hhead]; rfl)

theorem act_sameRecord (h : act c main s th a = .next s' th') (hx : ¬ a.Extends c main s th) :
    s.heap.mm.SameRecord s'.heap.mm := by
  obtain hmm | ⟨ret, r, served, touched, rfl, hhead, henter⟩ | ⟨ret, r, rfl, hhead, hmm⟩ := act_mm h
  · rw [hmm]
    exact .refl
  · refine MmapManager.enter_sameRecord henter (Bool.eq_false_iff.mpr fun hneeds => ?_)
    exact hx ⟨_, hhead, hneeds⟩
  · rw [hmm]
    exact MmapManager.serve_sameRecord

theorem act_sameLeases (h : act c main s th a = .next s' th') (hx : ¬ a.Leases th) :
    s'.heap.g = s.heap.g := by
  obtain hg | ⟨core, -, rfl | ⟨ptr, rfl, hlp⟩⟩ | ⟨j, -, rfl | ⟨ret, rest, rfl, hstack⟩⟩ := act_g h
  · exact hg
  · exact absurd trivial hx
  · obtain ⟨-, rfl, -⟩ | ⟨hne, -, -⟩ | ⟨j, -, hsome, -⟩ := free_next h
    · rfl
    · exact absurd ⟨hne, hlp⟩ hx
    · exact absurd (hlp.symm.trans hsome) (by simp)
  · rw [act, threadTerm, not_not.mp hx] at h
    obtain ⟨rfl, -⟩ := Result.next.inj h
    rfl
  · exact absurd ⟨j, by rw [hstack, List.head?_cons]⟩ hx

/-- **A step leaves alone** what it does not work on. -/
theorem step_same (hc : Setting c) (hinv : OwnershipInv c w) (hlegal : Legal c w (t, a))
    (hstep : w.step c t a = .next w')
    (hx : ¬ a.Works c (mainThread t) w.shared (w.threads t) x) : Same x w w' := by
  obtain ⟨q', hq'⟩ := (hinv.step hc hlegal hstep).1.owned
  obtain ⟨-, -, s, th, hact, rfl⟩ := World.step_next hstep
  cases x with
  | list l =>
      obtain ⟨q, hq⟩ := hinv.owned
      obtain ⟨q'', hheap, hleaves⟩ := act_touched hc hq (hinv.leases t) (hinv.frames t)
        hlegal.act hact
      obtain rfl := hheap.sound.linked.unique hq'.heap.sound.linked
      intro q₁ q₂ hlists hlists' i
      rw [hlists.unique hq.lists, hlists'.unique hq'.lists]
      exact hleaves l hx i
  | arena x => exact (act_sameArena hact hx).1
  | debug x => exact (act_sameArena hact fun harena => hx (Or.inl harena)).2
  | record => exact act_sameRecord hact hx
  | leases => exact act_sameLeases hact hx

end Frame

/-! ### What keeps sections apart -/

section Guards

variable {c : Config} {base : Nat → Nat} {w : World} {t t' : Nat} {a a' : Action} {l : ListId}
  {m : Mutex} {ms ms' : List Mutex} {f : Frame} {r : Request} {x j j' : Nat}

theorem mem_guards_locks (h : locks c (mainThread t) w.shared (w.threads t) a = some m) :
    m ∈ guards c w t a :=
  List.mem_append_right _ (Option.mem_toList.mpr h)

/-- The mutex that the function on top of the stack locks. -/
theorem mem_guards_frame {ret : Nat} (hhead : (w.threads t).stack.head? = some f)
    (h : f.locks c (mainThread t) w.shared = some m) : m ∈ guards c w t (.resume ret) := by
  refine mem_guards_locks ?_
  rw [locks]
  split
  case h_1 hnil =>
    rw [hnil] at hhead
    exact absurd hhead (by simp)
  case h_2 f' rest hstack =>
    rw [hstack, List.head?_cons, Option.some.injEq] at hhead
    rw [hhead]
    exact h

/-- How a thread comes to work on a list. -/
inductive Guarded (c : Config) (w : World) (t : Nat) (ms : List Mutex) (l : ListId) : Prop
  /-- It is one of a manager the thread has leased. -/
  | leased {j : Nat} {p : Purpose} :
      (j, p) ∈ (w.threads t).leases → ListOf c j l → Guarded c w t ms l
  /-- It is a common pool. -/
  | pool {k : Nat} : l = .poolsPerCore k → .mtxsPerCore k ∈ ms → Guarded c w t ms l
  /-- It is the `malloc_` of an idle manager. -/
  | idle {j : Nat} : j < managerN c → w.shared.heap.g.poolFlags j = false →
      l = (managerPools c j).mallocList → .mtx ∈ ms → Guarded c w t ms l

/-- **Two threads with one list** have one mutex. -/
theorem Guarded.common (h : LeasesInv c w) (hne : t ≠ t') (hg : Guarded c w t ms l)
    (hg' : Guarded c w t' ms' l) : ∃ m ∈ ms, m ∈ ms' := by
  cases hg with
  | leased hlease hlist =>
      obtain ⟨hj, hflag, -, hexclusive⟩ := h.exclusive hlease
      cases hg' with
      | leased hlease' hlist' =>
          obtain rfl := hlist.manager_eq hlist' hj (h.exclusive hlease').1
          exact absurd (hexclusive t' _ hlease').1.symm hne
      | pool heq _ => exact absurd heq (hlist.ne_pool hj _)
      | idle hj' hidle heq _ =>
          obtain rfl := hlist.manager_eq (Or.inl heq) hj hj'
          exact absurd (hflag.symm.trans hidle) (by decide)
  | pool heq hm =>
      cases hg' with
      | leased hlease' hlist' => exact absurd heq (hlist'.ne_pool (h.exclusive hlease').1 _)
      | pool heq' hm' =>
          obtain rfl := ListId.poolsPerCore.inj (heq.symm.trans heq')
          exact ⟨_, hm, hm'⟩
      | idle _ _ heq' _ => exact absurd (heq'.symm.trans heq) mallocList_ne_pool
  | idle hj hidle heq hm =>
      cases hg' with
      | leased hlease' hlist' =>
          obtain ⟨hj', hflag, -⟩ := h.exclusive hlease'
          obtain rfl := hlist'.manager_eq (Or.inl heq) hj' hj
          exact absurd (hflag.symm.trans hidle) (by decide)
      | pool heq' _ => exact absurd (heq.symm.trans heq') mallocList_ne_pool
      | idle _ _ _ hm' => exact ⟨_, hm, hm'⟩

/-- `malloc_` and the own `free_` list of a manager are lists of it. -/
theorem LocalList.listOf (h : LocalList c j l) (hj : j < managerN c) : ListOf c j l :=
  h.imp id fun heq => ⟨_, core_lt hj, heq⟩

theorem FreesTo.listOf {carved : List Block} {ptr : Nat} (h : FreesTo c carved j ptr l)
    (hcores : ∀ b ∈ carved, b.core < c.coreN) : ListOf c j l := by
  obtain ⟨b, hb, -, rfl⟩ := h
  exact Or.inr ⟨b.core, hcores b hb, rfl⟩

/-- A hand-back works on the lists of the manager handed back, and under `mtx_` on others. -/
theorem Guarded.of_handBack {p : Purpose} (hlease : (j, p) ∈ (w.threads t).leases)
    (hm : .mtx ∈ ms) (hl : HandBackList c w.shared.heap.g j l) : Guarded c w t ms l := by
  obtain ⟨k, hk, rfl⟩ | ⟨j', hj', hidle, heq⟩ := hl
  · exact .leased hlease (Or.inr ⟨k, hk, rfl⟩)
  · exact .idle hj' hidle heq hm

/-- **Every function** touches its lists under a lease or a mutex. -/
theorem Frame.Touches.guarded (h : LeasesInv c w) {ret : Nat}
    (hhead : (w.threads t).stack.head? = some f) (hl : f.Touches c w.shared l) :
    Guarded c w t (guards c w t (.resume ret)) l := by
  obtain ⟨q, hq⟩ := h.inv.owned
  have hcores : ∀ b ∈ w.shared.heap.carved, b.core < c.coreN := fun b hb =>
    (hq.heap.blocks b hb).core_lt
  have hmem : f ∈ (w.threads t).stack := List.mem_of_mem_head? hhead
  have hok := h.inv.frames t f hmem
  -- the calls of `Malloc` are on the thread's own manager
  have hown : ∀ r, f.request = some r → (r.manager, Purpose.own) ∈ (w.threads t).leases :=
    fun r hr => Thread.mem_leases.mpr (Or.inl ⟨rfl, (h.inv.locking.requests t f hmem r hr).1⟩)
  have hfrees : ∀ r, f.request = some r → r.Frees c w.shared.heap.carved l →
      Guarded c w t (guards c w t (.resume ret)) l := by
    intro r hr hto
    obtain ⟨-, ptr, -, hto⟩ := hto
    exact .leased (hown r hr) (hto.listOf hcores)
  cases f with
  | pool r =>
      obtain heq | heq | hto := hl
      · exact .leased (hown r rfl) (Or.inl heq)
      · exact .pool heq (mem_guards_frame hhead rfl)
      · exact hfrees r rfl hto
  | allocate r | printing r _ =>
      obtain heq | hto := hl
      · exact .leased (hown r rfl) (Or.inl heq)
      · exact hfrees r rfl hto
  | freeing j ptr =>
      exact .leased (Thread.mem_leases.mpr (Or.inr ⟨_, hmem, rfl⟩)) (hl.listOf hcores)
  | release j =>
      exact .of_handBack (Thread.mem_leases.mpr (Or.inr ⟨_, hmem, rfl⟩))
        (mem_guards_frame hhead rfl) hl
  | flush j i =>
      obtain ⟨hne, rfl | rfl⟩ := hl
      · exact .pool rfl (mem_guards_frame hhead (if_pos hne))
      · exact .leased (Thread.mem_leases.mpr (Or.inl ⟨rfl, h.flushing t j i hmem⟩))
          (Or.inr ⟨i, hok.2, rfl⟩)

/-- **Every step** touches its lists under a lease or a mutex. -/
theorem Action.Touches.guarded (h : LeasesInv c w)
    (hl : a.Touches c w.shared (w.threads t) l) : Guarded c w t (guards c w t a) l := by
  obtain ⟨q, hq⟩ := h.inv.owned
  have hcores : ∀ b ∈ w.shared.heap.carved, b.core < c.coreN := fun b hb =>
    (hq.heap.blocks b hb).core_lt
  have hlease : ∀ j, (w.threads t).lp = some j → (j, Purpose.own) ∈ (w.threads t).leases :=
    fun j hlp => Thread.mem_leases.mpr (Or.inl ⟨rfl, hlp⟩)
  cases a with
  | malloc size | calloc nmemb size =>
      obtain ⟨j, hlp, hlist⟩ := hl
      exact .leased (hlease j hlp) (hlist.listOf (h.inv.leases t j hlp))
  | realloc ptr size =>
      obtain ⟨j, hlp, hlist | ⟨-, -, -, hto⟩⟩ := hl
      · exact .leased (hlease j hlp) (hlist.listOf (h.inv.leases t j hlp))
      · exact .leased (hlease j hlp) (hto.listOf hcores)
  | free ptr =>
      obtain ⟨j, hlp, hto⟩ := hl
      exact .leased (hlease j hlp) (hto.listOf hcores)
  | exit =>
      obtain ⟨j, hlp, hback⟩ := hl
      exact .of_handBack (hlease j hlp) (mem_guards_locks (by simp [locks, hlp])) hback
  | resume ret =>
      obtain ⟨f, hhead, hf⟩ := hl
      exact hf.guarded h hhead
  | start | allFree | store => exact absurd hl id

/-- Leases are granted and taken back under `mtx_`. -/
theorem Action.Leases.guarded (hl : a.Leases (w.threads t)) : .mtx ∈ guards c w t a := by
  cases a with
  | start core => exact mem_guards_locks rfl
  | exit => exact mem_guards_locks (if_pos (Option.isSome_iff_ne_none.mpr hl))
  | free ptr => exact mem_guards_locks (if_pos ⟨hl.1, Option.isNone_iff_eq_none.mpr hl.2⟩)
  | resume ret =>
      obtain ⟨j, hhead⟩ := hl
      exact mem_guards_frame hhead rfl
  | malloc | calloc | realloc | allFree | store => exact absurd hl id

/-- An arena is worked on under its mutex. -/
theorem arena_guarded (hx : a.arena c (mainThread t) (w.threads t) = some x) :
    .mtxs x ∈ guards c w t a := by
  cases a with
  | resume ret =>
      obtain ⟨f, hhead, hf⟩ := Option.bind_eq_some_iff.mp hx
      cases f with
      | allocate r =>
          obtain rfl := Option.some.inj hf
          exact mem_guards_frame hhead rfl
      | printing r phase =>
          obtain rfl := Option.some.inj hf
          refine List.mem_append_left _ (List.mem_flatMap.mpr ⟨_, List.mem_of_mem_head? hhead, ?_⟩)
          cases phase <;> simp [Frame.holds]
      | pool | freeing | release | flush => exact absurd hf (by simp [Frame.arena])
  | start | exit | malloc | calloc | realloc | free | allFree | store =>
      exact absurd hx (by simp [Action.arena])

/-- Part of a report is a step on the arena reported. -/
theorem Action.Shows.arena {main : Bool} {s : Shared} {th : Thread} (hx : a.Shows c main s th) :
    ∃ x, a.arena c main th = some x := by
  cases a with
  | resume ret =>
      obtain ⟨f, hhead, hf⟩ := hx
      cases f with
      | printing r phase => exact ⟨r.arena c main, by rw [Action.arena, hhead]; rfl⟩
      | flush j i =>
          refine absurd hf (not_or.mpr ⟨List.not_mem_nil, fun hlocks => ?_⟩)
          obtain ⟨-, hm⟩ := Option.ite_none_right_eq_some.mp hlocks
          exact absurd hm (by simp)
      | pool | allocate | freeing | release => exact absurd hf (by simp [Frame.Shows, Frame.holds,
          Frame.locks])
  | start | exit | malloc | calloc | realloc | free | allFree | store => exact absurd hx id

/-- An extension is of some arena. -/
theorem Action.Extends.arena {main : Bool} {s : Shared} {th : Thread}
    (hx : a.Extends c main s th) : ∃ x, a.arena c main th = some x := by
  cases a with
  | resume ret =>
      obtain ⟨f, hhead, hf⟩ := hx
      cases f with
      | allocate r => exact ⟨r.arena c main, by rw [Action.arena, hhead]; rfl⟩
      | pool | printing | freeing | release | flush => exact absurd hf id
  | start | exit | malloc | calloc | realloc | free | allFree | store => exact absurd hx id

/-- A report is under `debugMtx_`. -/
theorem Action.Shows.guarded (hx : a.Shows c (mainThread t) w.shared (w.threads t)) :
    .debugMtx ∈ guards c w t a := by
  cases a with
  | resume ret =>
      obtain ⟨f, hhead, hheld | hlocks⟩ := hx
      · exact List.mem_append_left _ (List.mem_flatMap.mpr ⟨f, List.mem_of_mem_head? hhead, hheld⟩)
      · exact mem_guards_frame hhead hlocks
  | start | exit | malloc | calloc | realloc | free | allFree | store => exact absurd hx id

/-- What a function that works on an arena holds or locks: the mutex of the arena, and
`debugMtx_`. -/
theorem Frame.mutex_of_arena (harena : f.arena c (mainThread t) = some x)
    (hm : m ∈ f.holds c (mainThread t) ∨ f.locks c (mainThread t) w.shared = some m) :
    m = .mtxs x ∨ m = .debugMtx := by
  cases f with
  | allocate r =>
      obtain rfl := Option.some.inj harena
      obtain hheld | hlocks := hm
      · exact absurd hheld List.not_mem_nil
      · exact Or.inl (Option.some.inj hlocks).symm
  | printing r phase =>
      obtain rfl := Option.some.inj harena
      cases phase with
      | extended =>
          obtain hheld | hlocks := hm
          · exact Or.inl (List.mem_singleton.mp hheld)
          · exact Or.inr (Option.some.inj hlocks).symm
      | reported =>
          obtain hheld | hlocks := hm
          · exact Or.inl (List.mem_singleton.mp hheld)
          · obtain ⟨-, heq⟩ := Option.ite_none_right_eq_some.mp hlocks
            exact Or.inr (Option.some.inj heq).symm
      | reporting | exhausted =>
          obtain hheld | hlocks := hm
          · obtain rfl | hmtxs := List.mem_cons.mp hheld
            · exact Or.inr rfl
            · exact Or.inl (List.mem_singleton.mp hmtxs)
          · exact absurd hlocks (by simp [Frame.locks])
  | pool | freeing | release | flush => exact absurd harena (by simp [Frame.arena])

theorem Frame.request_of_arena (harena : f.arena c (mainThread t) = some x) :
    ∃ r, f.request = some r ∧ r.arena c (mainThread t) = x := by
  cases f with
  | allocate r | printing r phase => exact ⟨r, rfl, Option.some.inj harena⟩
  | pool | freeing | release | flush => exact absurd harena (by simp [Frame.arena])

theorem Frame.request_of_holds (hm : m ∈ f.holds c (mainThread t)) :
    ∃ r, f.request = some r ∧ f.arena c (mainThread t) = some (r.arena c (mainThread t)) := by
  cases f with
  | printing r phase => exact ⟨r, rfl, rfl⟩
  | pool | allocate | freeing | release | flush => exact absurd hm List.not_mem_nil

/-- **A step on an arena** is under no mutex but that of the arena, and `debugMtx_` if it is part of
a report or inside one. -/
theorem mutex_of_arena (h : LockInv c w)
    (harena : a.arena c (mainThread t) (w.threads t) = some x) (hm : m ∈ guards c w t a) :
    m = .mtxs x ∨ m = .debugMtx := by
  cases a with
  | resume ret =>
      obtain ⟨f, hhead, hf⟩ := Option.bind_eq_some_iff.mp harena
      have hmem : f ∈ (w.threads t).stack := List.mem_of_mem_head? hhead
      obtain hheld | hlocks := List.mem_append.mp hm
      · obtain ⟨f', hmem', hholds⟩ := List.mem_flatMap.mp hheld
        obtain ⟨r, hr, rfl⟩ := Frame.request_of_arena hf
        obtain ⟨r', hr', hx'⟩ := Frame.request_of_holds hholds
        -- a nested call is of the same manager, and so of the same arena
        have hlp := (h.requests t f' hmem' r' hr').1
        have hlp' := (h.requests t f hmem r hr).1
        have heq := Option.some.inj (hlp.symm.trans hlp')
        have hsame : r'.arena c (mainThread t) = r.arena c (mainThread t) := by
          simp only [Request.arena, Request.lm, heq]
        rw [← hsame]
        exact Frame.mutex_of_arena (w := w) hx' (Or.inl hholds)
      · rw [Option.mem_toList, locks] at hlocks
        split at hlocks
        case h_1 hnil => exact absurd hlocks (by simp)
        case h_2 f' rest hstack =>
          rw [hstack, List.head?_cons, Option.some.injEq] at hhead
          rw [hhead] at hlocks
          exact Frame.mutex_of_arena hf (Or.inr hlocks)
  | start | exit | malloc | calloc | realloc | free | allFree | store =>
      exact absurd harena (by simp [Action.arena])

/-- A thread about to extend an arena has `debugMtx_` only if it is inside a report. -/
theorem Action.Extends.owner (h : LockInv c w)
    (hx : a.Extends c (mainThread t) w.shared (w.threads t)) (hm : .debugMtx ∈ guards c w t a) :
    w.owner .debugMtx = some t := by
  cases a with
  | resume ret =>
      obtain ⟨f, hhead, hf⟩ := hx
      obtain hheld | hlocks := List.mem_append.mp hm
      · exact (h.owners _ t).mpr hheld
      · rw [Option.mem_toList, locks] at hlocks
        split at hlocks
        case h_1 hnil => exact absurd hlocks (by simp)
        case h_2 f' rest hstack =>
          rw [hstack, List.head?_cons, Option.some.injEq] at hhead
          rw [hhead] at hlocks
          cases f with
          | allocate r => exact absurd (Option.some.inj hlocks) (by simp)
          | pool | printing | freeing | release | flush => exact absurd hf id
  | start | exit | malloc | calloc | realloc | free | allFree | store => exact absurd hx id

/-- **Two steps on arenas** are under one mutex if the arena is the same, or if both are under
`debugMtx_`. -/
theorem common_of_arenas {x' : Nat} (h : LockInv c w)
    (harena : a.arena c (mainThread t) (w.threads t) = some x)
    (harena' : a'.arena c (mainThread t') (w.threads t') = some x') :
    (∃ m ∈ guards c w t a, m ∈ guards c w t' a') ↔
      x = x' ∨ .debugMtx ∈ guards c w t a ∧ .debugMtx ∈ guards c w t' a' := by
  constructor
  · rintro ⟨m, hm, hm'⟩
    obtain rfl | rfl := mutex_of_arena h harena hm
    · obtain heq | heq := mutex_of_arena h harena' hm'
      · exact Or.inl (Mutex.mtxs.inj heq)
      · exact absurd heq (by simp)
    · exact Or.inr ⟨hm, hm'⟩
  · rintro (rfl | ⟨hm, hm'⟩)
    · exact ⟨.mtxs x, arena_guarded harena, arena_guarded harena'⟩
    · exact ⟨.debugMtx, hm, hm'⟩

/-- **Two extensions** are under one mutex only if they are of one arena. -/
theorem Action.Extends.common (h : LockInv c w) (hne : t ≠ t')
    (hx : a.Extends c (mainThread t) w.shared (w.threads t))
    (hx' : a'.Extends c (mainThread t') w.shared (w.threads t')) :
    (∃ m ∈ guards c w t a, m ∈ guards c w t' a') ↔
      a.arena c (mainThread t) (w.threads t) = a'.arena c (mainThread t') (w.threads t') := by
  obtain ⟨x, harena⟩ := hx.arena
  obtain ⟨x', harena'⟩ := hx'.arena
  rw [common_of_arenas h harena harena', harena, harena', Option.some.injEq]
  refine or_iff_left fun ⟨hm, hm'⟩ => hne ?_
  exact Option.some.inj ((hx.owner h hm).symm.trans (hx'.owner h hm'))

/-- A step that works on the sizes for debugging is on some arena. -/
theorem Action.Works.arena_of_debug {main : Bool} {s : Shared} {th : Thread}
    (hx : a.Works c main s th (.debug x)) : ∃ x', a.arena c main th = some x' := by
  cases hx with
  | inl harena => exact ⟨x, harena⟩
  | inr hshows => exact hshows.arena

end Guards

/-! ### Runs -/

section Runs

variable {c : Config} {base : Nat → Nat} {w : World}

theorem LeasesInv.run (hc : Setting c) (hbase : c.FreshBase base)
    (hrun : (system c base).Run (Legal c) w) : LeasesInv c w := by
  refine hrun.invariant (motive := fun w => LeasesInv c w) ?_ fun w a w' h hlegal hstep => ?_
  · rintro _ ⟨mem, rfl⟩
    exact .start hbase mem
  · exact h.step hc hlegal hstep

/-- **No race but two.** In every state of every run a step leaves alone what it does not work
on, and if two threads can work on the same part of the state, then both do so under one mutex.
The exceptions are the record of the extensions, when they extend different arenas, and the sizes
for debugging of an arena, when one of them works on it and the other reports a different one. -/
theorem race_free (c : Config) (base : Nat → Nat) (w : World) (hc : Setting c)
    (hbase : c.FreshBase base) (hrun : (system c base).Run (Legal c) w) :
    (∀ t a w' x, Legal c w (t, a) → w.step c t a = .next w' →
      ¬ a.Works c (mainThread t) w.shared (w.threads t) x → Same x w w') ∧
    ∀ t t' a a' x, t ≠ t' → a.Works c (mainThread t) w.shared (w.threads t) x →
      a'.Works c (mainThread t') w.shared (w.threads t') x →
      ((∃ m ∈ guards c w t a, m ∈ guards c w t' a') ↔ ¬ Unguarded c w t t' a a' x) := by
  have h := LeasesInv.run hc hbase hrun
  refine ⟨fun t a w' x hlegal hstep hx => step_same hc h.inv hlegal hstep hx, ?_⟩
  intro t t' a a' x hne hx hx'
  cases x with
  | list l =>
      have hcommon := (Action.Touches.guarded h hx).common h hne (Action.Touches.guarded h hx')
      exact iff_of_true hcommon id
  | arena x => exact iff_of_true ⟨_, arena_guarded hx, arena_guarded hx'⟩ id
  | debug x =>
      obtain ⟨y, harena⟩ := hx.arena_of_debug
      obtain ⟨y', harena'⟩ := hx'.arena_of_debug
      rw [common_of_arenas h.inv.locking harena harena', Unguarded, harena, harena',
        not_and_or, not_not, not_not, Option.some.injEq]
  | record => rw [Action.Extends.common h.inv.locking hne hx hx', Unguarded, not_not]
  | leases => exact iff_of_true ⟨_, Action.Leases.guarded hx, Action.Leases.guarded hx'⟩ id

/-- The main thread and another one, on core 1, both ask for 128 MB, which fits in neither's
arena. -/
def twoExtendRun : List (Nat × Action) :=
  [(0, .start 0), (1, .start 1), (0, .malloc (2 ^ 27)), (1, .malloc (2 ^ 27)), (0, .resume 0),
    (1, .resume 0)]

/-- The main thread has extended its arena and is about to report it. -/
def reportRun : List (Nat × Action) := twoExtendRun ++ [(0, .resume 0x900000000000)]

theorem twoExtendRun_made : ((World.init twoCores MmapManager.oneCoreBase fun _ => 0).run
    twoCores (fun w a => allocates twoCores a.1 w a) twoExtendRun).isSome = true := by
  decide +kernel

theorem reportRun_made : ((World.init twoCores MmapManager.oneCoreBase fun _ => 0).run
    twoCores (fun w a => allocates twoCores a.1 w a) reportRun).isSome = true := by
  decide +kernel

theorem allocates_legal {w : World} {as : List (Nat × Action)}
    (h : (World.init twoCores MmapManager.oneCoreBase fun _ => 0).run twoCores
      (fun w a => allocates twoCores a.1 w a) as = some w) :
    (system twoCores MmapManager.oneCoreBase).Run (Legal twoCores) w :=
  World.run_sound _ (fun _ _ h => (Alone.of_allocates h).1) (.start ⟨_, rfl⟩) h

/-- **Both races.** After the first run both threads are about to extend an arena. After the second
the main thread is about to show the sizes of all arenas, and the other thread works on its own. No
mutex keeps them apart. -/
theorem race_free_twoExtendRun : (∃ w : World,
    (Action.resume 0).Works twoCores true w.shared (w.threads 0) .record ∧
    (Action.resume 0).Works twoCores false w.shared (w.threads 1) .record ∧
    ¬ ∃ m ∈ guards twoCores w 0 (.resume 0), m ∈ guards twoCores w 1 (.resume 0)) ∧
    ∃ w : World,
    (Action.resume 0).Works twoCores true w.shared (w.threads 0) (.debug 1) ∧
    (Action.resume 0).Works twoCores false w.shared (w.threads 1) (.debug 1) ∧
    ¬ ∃ m ∈ guards twoCores w 0 (.resume 0), m ∈ guards twoCores w 1 (.resume 0) := by
  let r (j : Nat) : Request := ⟨j, 2 ^ 27, .malloc⟩
  have hapart : some ((r 0).arena twoCores true) ≠ some ((r 5).arena twoCores false) := by decide
  constructor
  · let w := Option.get _ twoExtendRun_made
    have hmain : (w.threads 0).stack.head? = some (.allocate (r 0)) := by decide +kernel
    have hother : (w.threads 1).stack.head? = some (.allocate (r 5)) := by decide +kernel
    have hneeds : w.shared.heap.mm.needsExtension twoCores ((r 0).arena twoCores true)
          ((r 0).mmapSize twoCores) = true ∧
        w.shared.heap.mm.needsExtension twoCores ((r 5).arena twoCores false)
          ((r 5).mmapSize twoCores) = true := by
      decide +kernel
    have hextends : (Action.resume 0).Works twoCores true w.shared (w.threads 0) .record :=
      ⟨_, hmain, hneeds.1⟩
    have hextends' : (Action.resume 0).Works twoCores false w.shared (w.threads 1) .record :=
      ⟨_, hother, hneeds.2⟩
    have hguards := (race_free twoCores _ w twoCores_setting (by decide)
      (allocates_legal (Option.some_get twoExtendRun_made).symm)).2 0 1 (.resume 0) (.resume 0)
        .record (by decide) hextends hextends'
    refine ⟨w, hextends, hextends', fun hcommon => hguards.mp hcommon ?_⟩
    rw [Unguarded, Action.arena, hmain, Action.arena, hother]
    exact hapart
  · let w := Option.get _ reportRun_made
    have hmain : (w.threads 0).stack = [.printing (r 0) .extended] := by decide +kernel
    have hother : (w.threads 1).stack = [.allocate (r 5)] := by decide +kernel
    have hshows : (Action.resume 0).Works twoCores true w.shared (w.threads 0) (.debug 1) :=
      Or.inr ⟨_, by rw [hmain, List.head?_cons], Or.inr rfl⟩
    have hworks : (Action.resume 0).Works twoCores false w.shared (w.threads 1) (.debug 1) := by
      refine Or.inl ?_
      rw [Action.arena, hother]
      decide
    have hguards := (race_free twoCores _ w twoCores_setting (by decide)
      (allocates_legal (Option.some_get reportRun_made).symm)).2 0 1 (.resume 0) (.resume 0)
        (.debug 1) (by decide) hshows hworks
    refine ⟨w, hshows, hworks, fun hcommon => hguards.mp hcommon ⟨?_, fun hboth => ?_⟩⟩
    · rw [Action.arena, hmain, Action.arena, hother]
      exact hapart
    · have hguards' : guards twoCores w 1 (.resume 0) = [.mtxs ((r 5).arena twoCores false)] := by
        simp [guards, Thread.held, hother, Frame.holds, locks, Frame.locks, mainThread]
      have hm := hboth.2
      rw [hguards'] at hm
      exact absurd (List.mem_singleton.mp hm) (by simp)

end Runs

end Machine

end FCMalloc
