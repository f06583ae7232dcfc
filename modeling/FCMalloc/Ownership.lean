import FCMalloc.HeapGrowth
import FCMalloc.Machine

/-!
# FCMalloc.Ownership

Who has each block: the program, or one queue.

`Owned` adds to the heap invariant that a block is live exactly if it is on no queue,
and that everything returned so far was a block of the size and core asked for. A
`Malloc` that has unlinked a block but not returned it yet is `Popped`: the same for all
blocks but one. `Popped.finish` closes the gap, `Owned.release` is the way back.

Each part of a call is one lemma that takes `Owned` to `Owned`, and says what it leaves
alone for the calls of other threads (`Kept`).
-/

namespace FCMalloc.Machine

open ByteMemory GlobalMemoryManager LocalMemoryManager

/-- A returned pointer is null or the body of a block that is large enough, and, if a
manager served it, of the manager's core and the class of the request. -/
def Returned.Ok (s : Shared) (e : Returned) : Prop :=
  e.ptr ≠ 0 → ∃ b ∈ s.heap.carved, b.body = e.ptr ∧ e.size ≤ b.size ∧
    ∀ core, e.core = some core → b.core = core ∧ b.size = 2 ^ (sizeClass e.size).val

/-- The ownership invariant. -/
structure Owned (c : Config) (s : Shared) (q : QueueId → List Nat) : Prop where
  heap : HeapInv c s.heap q
  live_iff : ∀ b ∈ s.heap.carved, b.body ∈ s.live ↔ ¬ Queued q b.addr
  live_carved : ∀ p ∈ s.live, ∃ b ∈ s.heap.carved, b.body = p
  live_nodup : s.live.Nodup
  returned : ∀ e ∈ s.returned, e.Ok s

/-- The invariant inside `Malloc` for request `r`, which is about to return `ptr`: no block,
or one that has left the queues and is not live yet. -/
inductive Popped (c : Config) (s : Shared) (q : QueueId → List Nat) (r : Request) : Nat → Prop
  | null : Owned c s q → Popped c s q r 0
  | block {b : Block} : b ∈ s.heap.carved → b.core = (r.lm c).core →
      b.size = 2 ^ (sizeClass r.size).val → HeapInv c s.heap q →
      (∀ b' ∈ s.heap.carved, b' ≠ b → (b'.body ∈ s.live ↔ ¬ Queued q b'.addr)) →
      b.body ∉ s.live → ¬ Queued q b.addr →
      (∀ p ∈ s.live, ∃ b ∈ s.heap.carved, b.body = p) → s.live.Nodup →
      (∀ e ∈ s.returned, e.Ok s) → Popped c s q r b.body

/-- What a step leaves alone: blocks stay carved, live pointers other than `given` stay
live, and arenas other than `arena` stay as they are. -/
structure Kept (s s' : Shared) (given arena : Option Nat) : Prop where
  carved : s.heap.carved <+: s'.heap.carved
  live : ∀ p ∈ s.live, given ≠ some p → p ∈ s'.live
  arenas : ∀ a, arena ≠ some a → s'.heap.mm.sizes a = s.heap.mm.sizes a ∧
    s'.heap.mm.offsets a = s.heap.mm.offsets a ∧
    s'.heap.mm.firstTouchFlag a = s.heap.mm.firstTouchFlag a

/-- What a pointer handed to `Malloc` for a `realloc` must be. -/
def Growing (s : Shared) (r : Request) : Prop :=
  ∀ ptr preSize, r.caller = .realloc ptr preSize → ptr ∈ s.live ∧ preSize < r.size ∧
    ∃ b ∈ s.heap.carved, b.body = ptr ∧ b.size = preSize

/-- The pointer a caller of `Malloc` gives up once it has the new one. -/
def Caller.old : Caller → Option Nat
  | .realloc ptr _ => some ptr
  | _ => none

section Kept

variable {s s' s'' : Shared} {given arena : Option Nat}

theorem Kept.refl (s : Shared) : Kept s s given arena :=
  ⟨List.prefix_refl _, fun _ hp _ => hp, fun _ _ => ⟨rfl, rfl, rfl⟩⟩

theorem Kept.trans (h : Kept s s' given arena) (h' : Kept s' s'' given arena) :
    Kept s s'' given arena where
  carved := h.carved.trans h'.carved
  live p hp hne := h'.live p (h.live p hp hne) hne
  arenas a ha := by
    obtain ⟨hs, ho, hf⟩ := h.arenas a ha
    obtain ⟨hs', ho', hf'⟩ := h'.arenas a ha
    exact ⟨hs'.trans hs, ho'.trans ho, hf'.trans hf⟩

theorem Kept.mem_carved (h : Kept s s' given arena) {b : Block} (hb : b ∈ s.heap.carved) :
    b ∈ s'.heap.carved :=
  h.carved.subset hb

/-- A step that touches neither blocks, nor pointers, nor arenas. -/
theorem Kept.of_eq (hcarved : s'.heap.carved = s.heap.carved) (hlive : s'.live = s.live)
    (hmm : s'.heap.mm = s.heap.mm) : Kept s s' given arena := by
  constructor
  case carved => exact hcarved ▸ List.prefix_refl _
  case live =>
    intro p hp _
    rwa [hlive]
  case arenas =>
    intro a _
    rw [hmm]
    exact ⟨rfl, rfl, rfl⟩

end Kept

section Owned

variable {c : Config} {s : Shared} {q q' q₁ : QueueId → List Nat} {heap : Process} {r : Request}
  {b : Block} {ptr j : Nat}

/-- A pointer returned once more. -/
theorem Owned.returns {e : Returned} (h : Owned c s q) (he : e.Ok s) :
    Owned c { s with returned := e :: s.returned } q := by
  refine ⟨h.heap, h.live_iff, h.live_carved, h.live_nodup, fun e' he' => ?_⟩
  rcases List.mem_cons.mp he' with rfl | he'
  · exact he
  · exact h.returned e' he'

/-- A change of the heap that carves nothing and keeps every block on or off the queues. -/
theorem Owned.reheap (h : Owned c s q) (hheap : HeapInv c heap q')
    (hcarved : heap.carved = s.heap.carved) (hqueued : ∀ a, Queued q' a ↔ Queued q a) :
    Owned c { s with heap } q' where
  heap := hheap
  live_iff b hb := by
    rw [hqueued]
    exact h.live_iff b (hcarved ▸ hb)
  live_carved p hp := by
    simp only [hcarved]
    exact h.live_carved p hp
  live_nodup := h.live_nodup
  returned e he := by
    unfold Returned.Ok
    simp only [hcarved]
    exact h.returned e he

/-- **Taking the front of a queue** of the request's core and class. -/
theorem Owned.pop (h : Owned c s q) (hr : r.manager < managerN c) (hdealt : HeapInv.Dealt c q q₁)
    (hheap : HeapInv c heap (dequeue q₁ ((r.lm c).mallocList, sizeClass r.size)))
    (hcarved : heap.carved = s.heap.carved)
    (hptr : ptr = frontBody (q₁ ((r.lm c).mallocList, sizeClass r.size))) :
    Popped c { s with heap } (dequeue q₁ ((r.lm c).mallocList, sizeClass r.size)) r ptr := by
  obtain ⟨hnull, hqueued⟩ | ⟨b, hb, hbody, hcore, hsize, hqueued, hothers⟩ :=
    h.heap.served_of_dealt (k := ((r.lm c).mallocList, sizeClass r.size)) hdealt
  · rw [hptr, hnull]
    exact .null (h.reheap hheap hcarved hqueued)
  · have hlist : listCore c (r.lm c).mallocList = some (r.lm c).core := listCore_mallocList hr
    have hmem : ∀ b, b ∈ heap.carved ↔ b ∈ s.heap.carved := fun b => by rw [hcarved]
    rw [hptr, hbody]
    refine .block ((hmem b).mpr hb) ?_ hsize hheap ?_ ?_ ?_ ?_ h.live_nodup ?_
    · exact (Option.some.inj (hlist.symm.trans hcore)).symm
    · intro b' hb' hne
      have haddr : b'.addr ≠ b.addr := fun heq => hne (h.heap.addr_inj ((hmem b').mp hb') hb heq)
      rw [hothers]
      exact (h.live_iff b' ((hmem b').mp hb')).trans (by simp [haddr])
    · exact fun hlive => (h.live_iff b hb).mp hlive hqueued
    · rw [hothers]
      exact fun hboth => hboth.2 rfl
    · intro p hp
      obtain ⟨b', hb', heq⟩ := h.live_carved p hp
      exact ⟨b', (hmem b').mpr hb', heq⟩
    · intro e he hne
      obtain ⟨b', hb', hok⟩ := h.returned e he hne
      exact ⟨b', (hmem b').mpr hb', hok⟩

/-- **Freeing a live block** queues it and ends its life. -/
theorem Owned.release (h : Owned c s q) (hj : j < managerN c) (hlive : ptr ∈ s.live) :
    ∃ q', Owned c { s.setStore ((managerPools c j).free s.heap.store ptr) with
      live := s.live.erase ptr } q' := by
  obtain ⟨b, hb, rfl⟩ := h.live_carved ptr hlive
  have hloose := (h.live_iff b hb).mp hlive
  refine ⟨_, h.heap.free hj hb hloose, ?_, ?_, h.live_nodup.erase _, h.returned⟩
  · intro b' hb'
    rw [queued_enqueue, h.live_nodup.mem_erase_iff, List.mem_singleton]
    by_cases hbb : b' = b
    · subst hbb
      simp
    · have hbody : b'.body ≠ b.body := fun heq => hbb (h.heap.body_inj hb' hb heq)
      have haddr : b'.addr ≠ b.addr := fun heq => hbb (h.heap.addr_inj hb' hb heq)
      have hiff : b'.body ∈ s.live ↔ ¬ Queued q b'.addr := h.live_iff b' hb'
      simp [hbody, haddr, hiff]
  · intro p hp
    exact h.live_carved p (List.mem_of_mem_erase hp)

/-- **The block becomes live**, after writes inside its body. -/
theorem Popped.give (h : Popped c s q r ptr) (mem : Memory) (hptr : ptr ≠ 0)
    (hsize : r.size < 2 ^ 64)
    (hmem : ∀ x, x < ptr ∨ ptr + r.size ≤ x → mem x = s.heap.store.mem x) :
    Owned c ⟨s.heap.setMem mem, ptr :: s.live,
      ⟨some (r.lm c).core, r.size, ptr⟩ :: s.returned⟩ q := by
  cases h with
  | null => exact absurd rfl hptr
  | @block b hb hcore hclass hheap hothers hdead hloose hcarved hnodup hreturned =>
      have hfits : r.size ≤ b.size := by
        rw [hclass, sizeClass_val]
        exact le_two_pow_logarithm2 hsize
      refine ⟨hheap.setMem_body hb fun x hx => hmem x (by omega), ?_, ?_, ?_, ?_⟩
      · intro b' hb'
        rw [List.mem_cons]
        by_cases hbb : b' = b
        · rw [hbb]
          simp [hloose]
        · have hbody : b'.body ≠ b.body := fun heq => hbb (hheap.body_inj hb' hb heq)
          rw [or_iff_right hbody]
          exact hothers b' hb' hbb
      · intro p hp
        rcases List.mem_cons.mp hp with rfl | hp
        · exact ⟨b, hb, rfl⟩
        · exact hcarved p hp
      · exact List.nodup_cons.mpr ⟨hdead, hnodup⟩
      · intro e he
        rcases List.mem_cons.mp he with rfl | he
        · exact fun _ =>
            ⟨b, hb, rfl, hfits, fun core heq => ⟨hcore.trans (Option.some.inj heq), hclass⟩⟩
        · exact hreturned e he

/-- The state when the block is live, and the caller has filled its body. -/
def Shared.given (c : Config) (s : Shared) (r : Request) (ptr : Nat) (mem : Memory) : Shared :=
  ⟨s.heap.setMem mem, ptr :: s.live, ⟨some (r.lm c).core, r.size, ptr⟩ :: s.returned⟩

/-- **What the caller makes of the pointer**: nothing of a null pointer; otherwise the block
becomes live, and `realloc` frees the old one. -/
theorem Popped.finish_cases (h : Popped c s q r ptr) (hsize : r.size < 2 ^ 64)
    (hgrow : Growing s r) :
    (Owned c s q ∧ s.finish c r ptr =
      { s with returned := ⟨some (r.lm c).core, r.size, 0⟩ :: s.returned }) ∨
    (ptr ≠ 0 ∧ ∃ mem, Owned c (s.given c r ptr mem) q ∧ (s.finish c r ptr = s.given c r ptr mem ∨
      ∃ b ∈ s.heap.carved, r.caller.old = some b.body ∧ b.body ∈ s.live ∧
        s.finish c r ptr = { (s.given c r ptr mem).setStore
            ((r.lm c).free (s.given c r ptr mem).heap.store b.body) with
          live := (s.given c r ptr mem).live.erase b.body })) := by
  unfold Shared.finish
  dsimp only
  split
  case isTrue hnull =>
    cases h with
    | null hown => exact Or.inl ⟨hown, rfl⟩
    | block => exact absurd hnull (HeapInv.body_ne_zero _)
  case isFalse hptr =>
    refine Or.inr ⟨hptr, ?_⟩
    split
    case h_1 =>
      have hgiven := h.give s.heap.store.mem hptr hsize fun _ _ => rfl
      exact ⟨_, hgiven, Or.inl rfl⟩
    case h_2 =>
      have hgiven := h.give (fill s.heap.store.mem ptr r.size 0) hptr hsize fun x hx =>
        if_neg (by omega)
      exact ⟨_, hgiven, Or.inl rfl⟩
    case h_3 old preSize hcaller =>
      obtain ⟨hlive, hless, b, hb, rfl, -⟩ := hgrow old preSize hcaller
      have hgiven := h.give (copy s.heap.store.mem ptr b.body preSize) hptr hsize fun x hx =>
        if_neg (by omega)
      have hne : ptr ≠ b.body := by
        rintro rfl
        exact (List.nodup_cons.mp hgiven.live_nodup).1 hlive
      refine ⟨_, hgiven, Or.inr ⟨b, hb, by rw [hcaller, Caller.old], hlive, ?_⟩⟩
      rw [Shared.given, List.erase_cons_tail (by simpa using hne)]
      rfl

/-- **`Malloc` returns**, and its caller after it. -/
theorem Popped.finish (h : Popped c s q r ptr) (hr : r.manager < managerN c)
    (hsize : r.size < 2 ^ 64) (hgrow : Growing s r) :
    ∃ q', Owned c (s.finish c r ptr) q' := by
  obtain ⟨hown, heq⟩ | ⟨-, mem, hgiven, heq | ⟨b, -, -, hlive, heq⟩⟩ := h.finish_cases hsize hgrow
  · rw [heq]
    exact ⟨q, hown.returns fun hne => absurd rfl hne⟩
  · rw [heq]
    exact ⟨q, hgiven⟩
  · rw [heq]
    exact hgiven.release hr (List.mem_cons_of_mem ptr hlive)

/-- What `finish` leaves alone. -/
theorem finish_kept (c : Config) (s : Shared) (r : Request) (ptr : Nat) (arena : Option Nat) :
    Kept s (s.finish c r ptr) r.caller.old arena := by
  unfold Shared.finish
  dsimp only
  split
  · exact Kept.of_eq rfl rfl rfl
  · split
    case h_1 | h_2 =>
      exact ⟨List.prefix_refl _, fun p hp _ => List.mem_cons_of_mem _ hp,
        fun _ _ => ⟨rfl, rfl, rfl⟩⟩
    case h_3 old preSize hcaller =>
      refine ⟨List.prefix_refl _, fun p hp hne => ?_, fun _ _ => ⟨rfl, rfl, rfl⟩⟩
      have hpo : p ≠ old := by
        rintro rfl
        exact hne (by rw [hcaller, Caller.old])
      exact List.mem_cons_of_mem _ ((List.mem_erase_of_ne hpo).mpr hp)

end Owned

end FCMalloc.Machine
