import FCMalloc.ClientView
import FCMalloc.ClzIndependence
import FCMalloc.QueueFrames

/-!
# FCMalloc.ClientRefinement

The machine refines the heap its program sees.

`Effect.step` answers each effect of a step by one `ClientHeap.Step`. The memory part of it
rests on one fact, `contents_eq`: a block whose bytes and whose life a step does not change
looks the same after it, because its header still gives its size. With the simulation rule
for traces every run, for any number of threads and in any order of their steps, shows the
program the history of an ordinary heap (`refines_clientHeap`). What holds of those then holds
of the allocator: a block keeps what was written into it last until it is given up
(`contents_persist`), and no pointer is handed out twice in between (`handed_out_once`). The
three are for every value of `__builtin_clz(0)`, on the runs that do not come to it
(`LegalSettled`).
-/

namespace FCMalloc.Machine

open ByteMemory GlobalMemoryManager LocalMemoryManager

section Contents

variable {c : Config} {s s' : Shared} {q q' : QueueId → List Nat} {b b' : Block} {p ptr j : Nat}
  {r : Request}

theorem contents_of_not_mem (hp : p ∉ s.live) : s.contents p = none := if_neg hp

theorem contents_of_mem (h : HeapInv c s.heap q) (hb : b ∈ s.heap.carved)
    (hp : b.body ∈ s.live) : s.contents b.body = some (bytes s.heap.store.mem b.body b.size) := by
  rw [Shared.contents, if_pos hp, h.ptrToSize hb]

/-- **A block looks the same** if its bytes are and it is as much alive. -/
theorem contents_eq (h : HeapInv c s.heap q) (h' : HeapInv c s'.heap q')
    (hb : b ∈ s.heap.carved) (hb' : b ∈ s'.heap.carved) (hlive : b.body ∈ s'.live ↔ b.body ∈ s.live)
    (hbytes : SameBytes s.heap.store.mem s'.heap.store.mem b.body b.size) :
    s'.contents b.body = s.contents b.body := by
  by_cases hp : b.body ∈ s.live
  · rw [contents_of_mem h hb hp, contents_of_mem h' hb' (hlive.mpr hp)]
    exact congrArg some (bytes_congr hbytes)
  · rw [contents_of_not_mem hp, contents_of_not_mem fun hp' => hp (hlive.mp hp')]

/-- Behind the scenes nothing shows. -/
theorem Quietly.contents (hquiet : Quietly s s') (h : HeapInv c s.heap q)
    (h' : HeapInv c s'.heap q') (hlive : ∀ p ∈ s.live, ∃ b ∈ s.heap.carved, b.body = p) :
    s'.contents = s.contents := by
  funext p
  by_cases hp : p ∈ s.live
  · obtain ⟨b, hb, rfl⟩ := hlive p hp
    exact contents_eq h h' hb (hquiet.carved.subset hb) (by rw [hquiet.live])
      fun i hi => hquiet.bodies b hb _ (Nat.le_add_right _ _) (by omega)
  · rw [contents_of_not_mem hp, contents_of_not_mem (by rwa [hquiet.live])]

/-- **A new block** shows its bytes, one given up for it is gone, and the others look the
same. -/
theorem contents_gain (s' : Shared) (dropped : Option Nat) (h : HeapInv c s.heap q)
    (h' : HeapInv c s'.heap q')
    (hcarved : s'.heap.carved = s.heap.carved) (hb : b ∈ s.heap.carved)
    (hlive : ∀ p, p ∈ s'.live ↔ p = b.body ∨ p ∈ s.live ∧ dropped ≠ some p)
    (hold : ∀ p ∈ s.live, ∃ b ∈ s.heap.carved, b.body = p)
    (hbytes : ∀ b' ∈ s.heap.carved, b' ≠ b →
      SameBytes s.heap.store.mem s'.heap.store.mem b'.body b'.size) (p : Nat) :
    s'.contents p = if p = b.body then some (bytes s'.heap.store.mem b.body b.size)
      else if dropped = some p then none else s.contents p := by
  by_cases hp : p = b.body
  · rw [if_pos hp, hp]
    exact contents_of_mem h' (hcarved ▸ hb) ((hlive _).mpr (Or.inl rfl))
  · rw [if_neg hp]
    have hlive' : p ∈ s'.live ↔ p ∈ s.live ∧ dropped ≠ some p :=
      (hlive p).trans (or_iff_right hp)
    split
    case isTrue hdrop => exact contents_of_not_mem fun hp' => (hlive'.mp hp').2 hdrop
    case isFalse hkeep =>
      by_cases hs : p ∈ s.live
      · obtain ⟨b', hb', rfl⟩ := hold p hs
        exact contents_eq h h' hb' (hcarved ▸ hb') (hlive'.trans (and_iff_left hkeep))
          (hbytes b' hb' fun heq => hp (heq ▸ rfl))
      · rw [contents_of_not_mem hs, contents_of_not_mem fun hp' => hs (hlive'.mp hp').1]

/-- Writes inside one body leave the other bodies alone. -/
theorem sameBytes_of_outside {mem : Memory} (h : HeapInv c s.heap q) (hb : b ∈ s.heap.carved)
    (hmem : ∀ x, x < b.body ∨ b.body + b.size ≤ x → mem x = s.heap.store.mem x) :
    ∀ b' ∈ s.heap.carved, b' ≠ b → SameBytes s.heap.store.mem mem b'.body b'.size :=
  fun _ hb' hne _ hi => hmem _ (h.bodies_apart hb' hb hne (Nat.le_add_right _ _) (by omega))

theorem exists_of_contents (h : Owned c s q) {xs : List UInt8} (hp : s.contents p = some xs) :
    ∃ b ∈ s.heap.carved, b.body = p ∧ xs.length = b.size := by
  by_cases hlive : p ∈ s.live
  · obtain ⟨b, hb, rfl⟩ := h.live_carved p hlive
    rw [contents_of_mem h.heap hb hlive] at hp
    obtain rfl := Option.some.inj hp
    exact ⟨b, hb, rfl, bytes_length _ _ _⟩
  · rw [contents_of_not_mem hlive] at hp
    exact absurd hp (by simp)

theorem contents_apart (h : Owned c s q) (p p' : Nat) (xs xs' : List UInt8) (hne : p ≠ p')
    (hp : s.contents p = some xs) (hp' : s.contents p' = some xs') :
    (⟨p, xs.length⟩ : Extent).Apart ⟨p', xs'.length⟩ := by
  obtain ⟨b, hb, rfl, hlen⟩ := exists_of_contents h hp
  obtain ⟨b', hb', rfl, hlen'⟩ := exists_of_contents h hp'
  have hapart := h.heap.apart_of_ne hb hb' fun heq => hne (heq ▸ rfl)
  refine hapart.mono ⟨?_, ?_⟩ ⟨?_, ?_⟩
  all_goals
    simp only [Block.extent, Block.body] at *
    omega

/-- The view of a state in which the program owns its blocks. -/
def Owned.view (h : Owned c s q) : ClientHeap UInt8 where
  block := s.contents
  apart := contents_apart h

end Contents

/-! ### One step -/

section Step

variable {c : Config} {main : Bool} {s s' : Shared} {th th' : Thread} {q q' : QueueId → List Nat}
  {a : Action} {r : Request} {ptr : Nat} {h h' : ClientHeap UInt8}

/-- **`Malloc` returns**, and its caller goes on: an allocation of the kind asked for. -/
theorem Popped.finish_step (hpop : Popped c s q r ptr) (hr : r.manager < managerN c)
    (hsize : r.size < 2 ^ 64) (hgrow : Growing s r) (hh : h.block = s.contents)
    (hh' : h'.block = (s.finish c r ptr).contents) :
    ClientHeap.Step h (r.caller.answer ⟨some (r.lm c).core, r.size, ptr⟩) h' := by
  cases hpop with
  | null =>
      unfold Caller.answer
      rw [if_pos (Or.inl rfl)]
      refine .quiet (hh'.trans (Eq.trans ?_ hh.symm))
      rw [Shared.finish]
      dsimp only
      rw [if_pos rfl]
      rfl
  | @block b hb _ hclass hheap hothers hdead hloose hcarved hnodup _ =>
      have hfits : r.size ≤ b.size := by
        rw [hclass, sizeClass_val]
        exact le_two_pow_logarithm2 hsize
      have hlen (mem : Memory) : r.size ≤ (bytes mem b.body b.size).length := by
        rw [bytes_length]
        exact hfits
      have hnone : h.block b.body = none := by
        rw [hh]
        exact contents_of_not_mem hdead
      have hne := HeapInv.body_ne_zero b
      let e : Returned := ⟨some (r.lm c).core, r.size, b.body⟩
      unfold Caller.answer
      rw [if_neg (by simp [hne])]
      rw [Shared.finish] at hh'
      dsimp only at hh'
      rw [if_neg hne] at hh'
      cases hcaller : r.caller with
      | malloc =>
          rw [hcaller] at hh'
          dsimp only at hh' ⊢
          refine .alloc hnone (hlen s.heap.store.mem) ?_
          rw [hh', hh]
          funext p
          refine (contents_gain ⟨s.heap, b.body :: s.live, e :: s.returned⟩ none (s := s) (b := b)
            hheap hheap rfl hb (fun p => ?_) hcarved (fun _ _ _ _ _ => rfl) p).trans ?_
          · simp [List.mem_cons]
          · rw [Function.update_apply]
            simp
      | calloc =>
          rw [hcaller] at hh'
          dsimp only at hh' ⊢
          let mem := fill s.heap.store.mem b.body r.size 0
          have houtside : ∀ x, x < b.body ∨ b.body + b.size ≤ x → mem x = s.heap.store.mem x :=
            fun x hx => fill_of_outside (by omega)
          refine .zalloc hnone (hlen mem) ?_ ?_
          · intro i hi
            rw [bytes_getElem? (by omega)]
            exact congrArg some (if_pos ⟨Nat.le_add_right _ _, by omega⟩)
          rw [hh', hh]
          funext p
          refine (contents_gain ⟨s.heap.setMem mem, b.body :: s.live, e :: s.returned⟩ none (s := s)
            (b := b) hheap (hheap.setMem_body hb houtside) rfl hb (fun p => ?_) hcarved
            (sameBytes_of_outside hheap hb houtside) p).trans ?_
          · simp [List.mem_cons]
          · rw [Function.update_apply]
            simp [mem, Process.setMem]
      | realloc old preSize =>
          rw [hcaller] at hh'
          dsimp only at hh' ⊢
          obtain ⟨hlive, hless, b₀, hb₀, rfl, rfl⟩ := hgrow old preSize hcaller
          have hne₀ : b₀ ≠ b := by
            rintro rfl
            exact hdead hlive
          obtain ⟨hmoved, hsame, hcopied⟩ := hheap.moveBody hr hb₀ hb (by omega)
            ((hothers b₀ hb₀ hne₀).mp hlive)
          have hold : h.block b₀.body = some (bytes s.heap.store.mem b₀.body b₀.size) := by
            rw [hh]
            exact contents_of_mem hheap hb₀ hlive
          refine .move hold hnone (by simpa using hless)
            (hlen ((r.lm c).moveBody s.heap b.body b₀.body b₀.size).store.mem) ?_ ?_
          · rw [← bytes_congr hcopied]
            exact bytes_prefix (by omega)
          rw [hh', hh]
          funext p
          refine (contents_gain ⟨(r.lm c).moveBody s.heap b.body b₀.body b₀.size,
            b.body :: s.live.erase b₀.body, e :: s.returned⟩ (some b₀.body) (s := s) (b := b) hheap
            hmoved rfl hb (fun p => ?_) hcarved hsame p).trans ?_
          · simp only [List.mem_cons, hnodup.mem_erase_iff, ne_eq, Option.some.injEq]
            rw [and_comm, eq_comm (a := b₀.body)]
          · rw [Function.update_apply, Function.update_apply]
            simp only [Option.some.injEq, eq_comm]

/-- An event of a step that neither writes nor frees is the answer of `Malloc`, if any. -/
theorem seen_of_answer {caller : Caller} {e : Returned} (hnot : ∀ x v, a ≠ .store x v)
    (hfrees : a.frees? th = none) (hcaller : a.caller? s th = some caller)
    (hreturned : s'.returned = e :: s.returned) : seen s th a s' = caller.answer e := by
  unfold seen
  cases a with
  | store x v => exact absurd rfl (hnot x v)
  | _ => simp [hfrees, hcaller, hreturned]

theorem seen_of_quiet (hnot : ∀ x v, a ≠ .store x v) (hfrees : a.frees? th = none)
    (hreturned : s'.returned = s.returned) : seen s th a s' = .quiet := by
  unfold seen
  cases a with
  | store x v => exact absurd rfl (hnot x v)
  | _ => cases hcaller : Action.caller? s th _ <;> simp [hfrees, hreturned]

theorem seen_of_frees (hnot : ∀ x v, a ≠ .store x v) (hfrees : a.frees? th = some ptr) :
    seen s th a s' = .free ptr := by
  unfold seen
  cases a with
  | store x v => exact absurd rfl (hnot x v)
  | _ => simp [hfrees]

/-- A block that is freed is gone, and the others look the same. -/
theorem contents_free {j : Nat} (hown : Owned c s q) (hj : j < managerN c) (hlive : ptr ∈ s.live)
    (p : Nat) : Shared.contents { s.setStore ((managerPools c j).free s.heap.store ptr) with
      live := s.live.erase ptr } p = Function.update s.contents ptr none p := by
  obtain ⟨b, hb, rfl⟩ := hown.live_carved ptr hlive
  have hloose := (hown.live_iff b hb).mp hlive
  have hbodies := hown.heap.sameBodies_links
    (hown.heap.free_moved (managerPools c j) hb hloose).links
  have hmem : ∀ p, p ∈ s.live.erase b.body ↔ p ≠ b.body ∧ p ∈ s.live := fun p =>
    hown.live_nodup.mem_erase_iff
  rw [Function.update_apply]
  split
  case isTrue hp => exact contents_of_not_mem fun hp' => ((hmem p).mp hp').1 hp
  case isFalse hp =>
    by_cases hs : p ∈ s.live
    · obtain ⟨b', hb', rfl⟩ := hown.live_carved p hs
      exact contents_eq hown.heap (hown.heap.free hj hb hloose) hb' hb'
        ((hmem _).trans (and_iff_right hp))
        fun i hi => hbodies b' hb' _ (Nat.le_add_right _ _) (by omega)
    · rw [contents_of_not_mem hs, contents_of_not_mem fun hp' => hs ((hmem p).mp hp').2]

/-- A byte that is written shows in the block it is in, if any. -/
theorem contents_store {x : Nat} {v : UInt8} (hown : Owned c s q)
    (hout : ∀ b ∈ s.heap.carved, x < b.addr ∨ b.addr + headerSize ≤ x) (p : Nat) :
    Shared.contents { s with heap := s.heap.setMem (Function.update s.heap.store.mem x v) } p =
      (s.contents p).map fun xs => HeapEvent.apply p xs (.write x v) := by
  have hheap := hown.heap.setMem (Function.update s.heap.store.mem x v)
    fun b hb y hy hy' => Function.update_of_ne (by have := hout b hb; omega) _ _
  let s' : Shared := { s with heap := s.heap.setMem (Function.update s.heap.store.mem x v) }
  by_cases hs : p ∈ s.live
  · obtain ⟨b, hb, rfl⟩ := hown.live_carved p hs
    rw [contents_of_mem hown.heap hb hs, Option.map_some]
    exact (contents_of_mem (s := s') hheap hb hs).trans (congrArg some bytes_update)
  · rw [contents_of_not_mem hs]
    exact contents_of_not_mem (s := s') hs

/-- **Every effect** is a step of the program's heap. -/
theorem Effect.step (heffect : Effect c s th a s') (hown : Owned c s q) (hown' : Owned c s' q')
    (hok : ActOk c main s th a) (hh : h.block = s.contents) (hh' : h'.block = s'.contents) :
    ClientHeap.Step h (seen s th a s') h' := by
  cases heffect with
  | quiet hquiet hfrees hnot =>
      rw [seen_of_quiet hnot hfrees hquiet.returned]
      exact .quiet (by rw [hh', hh, hquiet.contents hown.heap hown'.heap hown.live_carved])
  | @keep ptr size ha hne hs =>
      subst ha hs
      rw [seen_of_answer (by simp) rfl rfl rfl, if_neg hne]
      unfold Caller.answer
      rw [if_pos (Or.inr rfl)]
      exact .quiet (hh'.trans hh.symm)
  | @answer r hfrees hnot hcaller hr hanswers =>
      cases hanswers with
      | waits hquiet =>
          rw [seen_of_quiet hnot hfrees hquiet.returned]
          exact .quiet (by rw [hh', hh, hquiet.contents hown.heap hown'.heap hown.live_carved])
      | @returns s₁ q₁ ptr hquiet hpop hs =>
          subst hs
          have hsame : h.block = s₁.contents := by
            rw [hh, hquiet.contents hown.heap hpop.heap hown.live_carved]
          have hgrow : Growing s₁ r := by
            intro old preSize heq
            obtain ⟨hlive, hless, b, hb, hbody⟩ := hr.grows old preSize heq
            exact ⟨hquiet.live ▸ hlive, hless, b, hquiet.carved.subset hb, hbody⟩
          have hreturned : (s₁.finish c r ptr).returned =
              ⟨some (r.lm c).core, r.size, ptr⟩ :: s.returned := by
            rw [finish_returned, hquiet.returned]
          rw [seen_of_answer hnot hfrees hcaller hreturned]
          exact hpop.finish_step hr.manager hr.size_lt hgrow hsame hh'
  | @free j ptr hj hfrees hlive hnot hs =>
      subst hs
      rw [seen_of_frees hnot hfrees]
      obtain ⟨ys, hys⟩ : ∃ ys, h.block ptr = some ys := ⟨_, by rw [hh, Shared.contents, if_pos hlive]⟩
      refine .free hys (hh'.trans ?_)
      rw [hh]
      exact funext (contents_free hown hj hlive)
  | @store x v ha hs =>
      subst ha hs
      refine .write fun p => ?_
      rw [hh', hh]
      exact contents_store hown hok p

end Step

/-! ### Runs -/

section Runs

variable {c : Config} {base : Nat → Nat} {w w' : World} {e : HeapEvent UInt8}
  {es : List (HeapEvent UInt8)} {h : ClientHeap UInt8} {p : Nat}

/-- `h` is what the program sees of `w`. -/
def Shows (c : Config) (w : World) (h : ClientHeap UInt8) : Prop :=
  OwnershipInv c w ∧ h.block = w.shared.contents

/-- **One step of the machine** is one step of the program's heap. -/
theorem Shows.step (hc : Setting c) (hshows : Shows c w h)
    (hstep : (system c base).Sees (Legal c) event w e w') :
    ∃ h', ClientHeap.Step h e h' ∧ Shows c w' h' := by
  obtain ⟨hinv, hblock⟩ := hshows
  obtain ⟨⟨t, a⟩, hlegal, hmade, rfl⟩ := hstep
  obtain ⟨hinv', -⟩ := hinv.step hc hlegal hmade
  obtain ⟨q, hq⟩ := hinv.owned
  obtain ⟨q', hq'⟩ := hinv'.owned
  obtain ⟨-, -, s, th, hact, hw⟩ := World.step_next hmade
  have hs : w'.shared = s := by rw [hw, World.commit_shared]
  have heffect := act_effect hc hq (hinv.leases t) (hinv.frames t) hlegal.act hact
  rw [← hs] at heffect
  exact ⟨hq'.view, heffect.step hq hq' hlegal.act hblock rfl, hinv', rfl⟩

theorem Shows.start (hbase : c.FreshBase base) (mem : Memory) :
    Shows c (World.init c base mem) ClientHeap.empty :=
  ⟨OwnershipInv.start hbase mem, rfl⟩

/-- **Refinement.** Every run, for any number of threads and in any order of their steps, shows
the program the history of a heap: each `malloc`, `calloc` and `realloc` that succeeds gives
it a fresh block, large enough, apart from all others, cleared or with the old contents where
that is owed; nothing else ever changes but by its own writes and frees. -/
theorem refines_clientHeap [ClzZero] (c : Config) (base : Nat → Nat) (mem : Memory) (hc : Setting c)
    (hbase : c.FreshBase base) (w : World) (es : List (HeapEvent UInt8))
    (hpath : Traced ((system c base).Sees (LegalSettled c) event) (World.init c base mem) es w) :
    ∃ h : ClientHeap UInt8, h.block = w.shared.contents ∧
      Traced ClientHeap.Step ClientHeap.empty es h := by
  obtain ⟨h, habstract, -, hblock⟩ := (path_noted_init hc hbase hpath).simulate
    (fun _ _ _ _ hshows hstep => hshows.step hc hstep) (Shows.start hbase mem)
  exact ⟨h, hblock, habstract⟩

/-- What `carveRun` shows: in its last step thread 1 gets its first block. -/
theorem carveRun_traced : Traced ((system MmapManager.oneCore MmapManager.oneCoreBase).Sees
      (LegalSettled MmapManager.oneCore) event)
    (World.init MmapManager.oneCore MmapManager.oneCoreBase fun _ => 0)
    [.quiet, .quiet, .quiet, .alloc 65536 139637976727600] (Option.get _ carveRun_made) := by
  have hpath := World.run_traced MmapManager.oneCoreBase (LegalSettled MmapManager.oneCore) event
    (fun _ a h => ⟨(Alone.of_allocates h).1, a.2.asks_settled⟩) .nil
    (Option.some_get carveRun_made).symm
  have hevents : (World.init MmapManager.oneCore MmapManager.oneCoreBase fun _ => 0).trace
      MmapManager.oneCore event carveRun = [.quiet, .quiet, .quiet, .alloc 65536 139637976727600] := by
    decide +kernel
  rwa [hevents] at hpath

/-- The four steps of `carveRun` are steps of a heap, which has the new block at the end. -/
theorem refines_clientHeap_carveRun : ∃ h : ClientHeap UInt8,
    (h.block 139637976727600).isSome = true ∧
      Traced ClientHeap.Step ClientHeap.empty [.quiet, .quiet, .quiet, .alloc 65536 139637976727600]
        h := by
  obtain ⟨h, hblock, habstract⟩ := refines_clientHeap MmapManager.oneCore MmapManager.oneCoreBase
    (fun _ => 0) oneCore_setting (by decide) _ _ carveRun_traced
  have hsome : (Shared.contents (Option.get _ carveRun_made).shared 139637976727600).isSome := by
    decide +kernel
  exact ⟨h, hblock ▸ hsome, habstract⟩

/-- **Contents persist.** From every state of every run on, as long as the program does not
give a block up, the block stays where it is, of the size it has, and each of its bytes is the
last one the program has written there. -/
theorem contents_persist [ClzZero] (c : Config) (base : Nat → Nat) (w w' : World)
    (es : List (HeapEvent UInt8)) (p : Nat) (hc : Setting c) (hbase : c.FreshBase base)
    (hrun : (system c base).Run (LegalSettled c) w)
    (hpath : Traced ((system c base).Sees (LegalSettled c) event) w es w') (hp : p ∈ w.shared.live)
    (hkeep : ∀ e ∈ es, ¬ e.Gives p) :
    p ∈ w'.shared.live ∧
      MemUtil.ptrToSize w'.shared.heap.store.mem p = MemUtil.ptrToSize w.shared.heap.store.mem p ∧
      ∀ i < MemUtil.ptrToSize w.shared.heap.store.mem p, w'.shared.heap.store.mem (p + i) =
        (HeapEvent.lastWrite (p + i) es).getD (w.shared.heap.store.mem (p + i)) := by
  obtain ⟨hinv, hsettled⟩ := settled_run hc hbase ((run_iff hc hbase).mp hrun)
  obtain ⟨q, hq⟩ := hinv.owned
  obtain ⟨h', habstract, -, hblock⟩ := (path_noted hc hinv hsettled hpath).simulate
    (fun _ _ _ _ hshows hstep => hshows.step hc hstep)
    (show Shows c w hq.view from ⟨hinv, rfl⟩)
  let n := MemUtil.ptrToSize w.shared.heap.store.mem p
  let xs := bytes w.shared.heap.store.mem p n
  have hbefore : hq.view.block p = some xs := if_pos hp
  have hafter : w'.shared.contents p = some (es.foldl (fun xs e => e.apply p xs) xs) := by
    rw [← hblock]
    exact ClientHeap.keeps habstract hbefore hkeep
  have hlive : p ∈ w'.shared.live := by
    by_contra hdead
    rw [contents_of_not_mem hdead] at hafter
    exact absurd hafter (by simp)
  rw [Shared.contents, if_pos hlive] at hafter
  have hbytes := Option.some.inj hafter
  have hsize : MemUtil.ptrToSize w'.shared.heap.store.mem p = n := by
    have hlen := congrArg List.length hbytes
    rw [bytes_length, HeapEvent.foldl_apply_length, bytes_length] at hlen
    exact hlen
  refine ⟨hlive, hsize, fun i hi => ?_⟩
  have hbyte := HeapEvent.getElem?_foldl_apply p i xs es
  rw [← hbytes, hsize, bytes_getElem? hi, bytes_getElem? hi, Option.map_some] at hbyte
  exact Option.some.inj hbyte

/-- A test for writes outside all headers. -/
def writes (w : World) (a : Nat × Action) : Bool :=
  match a.2 with
  | .store addr _ => w.shared.heap.carved.all fun b => addr < b.addr || b.addr + headerSize ≤ addr
  | _ => false

theorem Legal.of_writes {a : Nat × Action} (h : writes w a = true) : Legal c w a := by
  obtain ⟨t, a⟩ := a
  cases a with
  | store addr v =>
      refine ⟨fun b hb => ?_, by simp [Action.freed]⟩
      simpa using List.all_eq_true.mp h b hb
  | _ => exact absurd h (by simp [writes])

/-- Thread 1 writes twice into the block it got in `carveRun`. -/
def writeRun : List (Nat × Action) :=
  [(1, .store 139637976727605 7), (1, .store 139637976727605 9)]

theorem writeRun_made :
    ((Option.get _ carveRun_made).run MmapManager.oneCore writes writeRun).isSome = true := by
  decide +kernel

/-- The byte has the second of the two values, and the block is where it was. -/
theorem contents_persist_writeRun : ∃ w' : World, 139637976727600 ∈ w'.shared.live ∧
    w'.shared.heap.store.mem 139637976727605 = 9 := by
  let w := Option.get _ carveRun_made
  have hpath := World.run_traced MmapManager.oneCoreBase (LegalSettled MmapManager.oneCore) event
    (fun _ a h => ⟨Legal.of_writes h, a.2.asks_settled⟩) .nil (Option.some_get writeRun_made).symm
  have hevents : w.trace MmapManager.oneCore event writeRun =
      [.write 139637976727605 7, .write 139637976727605 9] := by decide +kernel
  rw [hevents] at hpath
  obtain ⟨hlive, -, hbytes⟩ := contents_persist MmapManager.oneCore MmapManager.oneCoreBase w _ _
    139637976727600 oneCore_setting (by decide) carveRun_settled hpath (by decide +kernel) (by decide)
  exact ⟨_, hlive, hbytes 5 (by decide +kernel)⟩

/-- **A pointer is handed out once** for every time it is given up, and once more while the
program holds it: over every run, and whichever threads make the calls. -/
theorem handed_out_once [ClzZero] (c : Config) (base : Nat → Nat) (mem : Memory) (hc : Setting c)
    (hbase : c.FreshBase base) (w : World) (es : List (HeapEvent UInt8))
    (hpath : Traced ((system c base).Sees (LegalSettled c) event) (World.init c base mem) es w)
    (p : Nat) :
    es.countP (fun e => e.Gets p) =
      es.countP (fun e => e.Gives p) + if p ∈ w.shared.live then 1 else 0 := by
  obtain ⟨h, habstract, -, hblock⟩ := (path_noted_init hc hbase hpath).simulate
    (fun _ _ _ _ hshows hstep => hshows.step hc hstep) (Shows.start hbase mem)
  have hcount := ClientHeap.balance habstract p
  rw [hblock, Shared.contents] at hcount
  split at hcount
  case isTrue hp => simpa [ClientHeap.empty, hp] using hcount
  case isFalse hp => simpa [ClientHeap.empty, hp] using hcount

/-- After `carveRun` the block of thread 1 has been handed out once more than given up. -/
theorem handed_out_once_carveRun :
    [HeapEvent.quiet, .quiet, .quiet, .alloc 65536 139637976727600].countP
      (fun e : HeapEvent UInt8 => e.Gets 139637976727600) = 0 + 1 := by
  have hcount := handed_out_once MmapManager.oneCore MmapManager.oneCoreBase (fun _ => 0)
    oneCore_setting (by decide) _ _ carveRun_traced 139637976727600
  have hlive : 139637976727600 ∈ (Option.get _ carveRun_made).shared.live := by decide +kernel
  rw [if_pos hlive] at hcount
  exact hcount

end Runs

end FCMalloc.Machine
