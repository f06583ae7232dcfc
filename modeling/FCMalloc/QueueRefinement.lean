import FCMalloc.Library.TransitionSystem
import FCMalloc.Allocator
import Mathlib.Data.Set.Insert

/-!
# FCMalloc.QueueRefinement

The free lists refine FIFO queues.

Any number of managers over one memory run calls of `MemoryLinkedListManager` in any order.
`ListOp` is such a call, `ListOp.exec` runs it on the store, and `ListOp.Legal` is what its
caller owes: a header that is put on a list is on no list yet. `ListOp.Effect` says what the
call does to a family of queues, one for each manager and size class.

The invariant of a run is `Rep` over the headers the lists have met so far. One step keeps it
and has its effect (`Lists.Inv.step`); a run keeps it by the invariant rule, and the caches and
links of every state reached are read off it (`lists_refine_queues`).
-/

namespace FCMalloc

open ByteMemory

variable {ι : Type}

/-- One queue for each manager and size class. -/
abbrev Queues (ι : Type) := ι × SizeClass → List Nat

namespace Store

/-- `a` is on no list. -/
def Unlisted (s : Store ι) (a : Nat) : Prop := ∀ k t, Chain 0 s.next (s.head k) t → a ∉ t

/-- The caches and the `next_` members represent the queues `q`. -/
structure Represents (s : Store ι) (q : Queues ι) : Prop where
  null_iff : ∀ k, s.head k = 0 ↔ s.last k = 0
  reaches : ∀ k, Chain 0 s.next (s.head k) (q k)
  last_eq : ∀ k, s.last k = (q k).getLastD 0
  ends : ∀ k, q k ≠ [] → s.next (s.last k) = 0
  distinct : Separated q

/-- The queues a store represents are the only ones. -/
theorem Represents.unique {s : Store ι} {q q' : Queues ι} (h : s.Represents q)
    (h' : s.Represents q') : q = q' :=
  funext fun k => (h.reaches k).unique (h'.reaches k)

variable [DecidableEq ι]

/-- `Allocate` from the return of `mm.Malloc` on, which cleared the bytes `touched` and gave
`p`. -/
def allocate (c : Config) (s : Store ι) (l : ι) (core size n : Nat) (touched : List Nat) (p : Nat) :
    Option (Store ι) :=
  (carve c (clear s.mem touched) core size n p).map fun r =>
    { s with mem := r.2.1 }.append l (sizeClass size) r.1.head r.1.last

end Store

/-- A representation, without its headers. -/
theorem Rep.represents {N : Set Nat} {s : Store ι} {q : Queues ι} (h : Rep N s q) :
    s.Represents q where
  null_iff k := by rw [h.linked.head_eq_null_iff, h.linked.last_eq_null_iff]
  reaches := h.linked.chain
  last_eq := h.linked.last_eq
  ends k hk := by
    have hlast : s.last k = (q k).getLast hk := by
      rw [h.linked.last_eq k, List.getLastD_eq_getLast?, List.getLast?_eq_getLast_of_ne_nil hk]
      rfl
    rw [hlast]
    exact (h.linked.chain k).next_getLast hk
  distinct := h.linked.sep

/-! ### Calls -/

/-- A call of a member function of `MemoryLinkedListManager`. -/
inductive ListOp (ι : Type)
  | push (l : ι) (index : SizeClass) (m : Nat)
  | append (l : ι) (index : SizeClass) (thead tlast : Nat)
  | pop (l : ι) (index : SizeClass)
  | malloc (l : ι) (size : Nat)
  | free (l : ι) (ptr : Nat)
  | allocate (l : ι) (core size n : Nat) (touched : List Nat) (p : Nat)
  | swap (l dst : ι) (index : SizeClass)
  | join (l lm : ι)

/-- The lists, with the headers they have met so far (history). -/
structure Lists (ι : Type) where
  store : Store ι
  made : Set Nat

namespace Lists

/-- A null-terminated chain `t` of headers that are on no list. -/
structure Spare (x : Lists ι) (thead tlast : Nat) (t : List Nat) : Prop where
  chain : Chain 0 x.store.next thead t
  last : tlast = t.getLastD 0
  nonempty : t ≠ []
  headers : HeaderSet (x.made ∪ { a | a ∈ t })
  unlisted : ∀ a ∈ t, x.store.Unlisted a

/-- A header on no list: one the lists have met before, or one whose `next_` is still null. -/
def SpareHeader (x : Lists ι) (m : Nat) : Prop :=
  (m ∈ x.made ∧ x.store.Unlisted m) ∨ x.Spare m m [m]

/-- `[p, p + len)` is memory without headers, and no cleared byte is part of a header. -/
structure Room (x : Lists ι) (touched : List Nat) (p len : Nat) : Prop where
  pos : 0 < p
  lt : p + len < 2 ^ 64
  free : ∀ a ∈ x.made, a + headerSize ≤ p ∨ p + len ≤ a
  cleared : ∀ a ∈ x.made, ∀ b ∈ touched, b < a ∨ a + headerSize ≤ b

end Lists

namespace ListOp

/-- What the caller owes. -/
def Legal (c : Config) (x : Lists ι) : ListOp ι → Prop
  | push _ _ m => x.SpareHeader m
  | append _ _ thead tlast => ∃ t, x.Spare thead tlast t
  | free _ ptr => ptr = 0 ∨ x.SpareHeader (headerOf ptr)
  | allocate _ core size n touched p =>
      1 ≤ n ∧ core < c.coreN ∧ x.Room touched p (n * totalSize size)
  | join l lm => l ≠ lm
  | _ => True

/-- The counter of the carving loop never reaches the count. -/
def Endless : ListOp ι → Prop
  | allocate _ _ _ n _ _ => 2 ^ 32 ≤ n
  | _ => False

/-- The headers a call puts on a list. -/
def listed (s : Store ι) : ListOp ι → Set Nat
  | push _ _ m => {m}
  | append _ _ thead _ => { a | ∃ t, Chain 0 s.next thead t ∧ a ∈ t }
  | free _ ptr => { a | ptr ≠ 0 ∧ a = headerOf ptr }
  | allocate _ core size n _ p =>
      { a | a ∈ (blocksFrom p (totalSize size) core (bodySize size) n).map Block.addr }
  | _ => ∅

variable [DecidableEq ι]

/-- A call that ran from `s` to `s'` and returned `r`: what it did to the queues. -/
def Effect (s s' : Store ι) (q q' : Queues ι) (r : Nat) : ListOp ι → Prop
  | push l i m => q' = enqueue q (l, i) [m]
  | append l i thead _ => ∃ t, Chain 0 s.next thead t ∧ q' = enqueue q (l, i) t
  | pop l i => q' = dequeue q (l, i) ∧ r = (q (l, i)).headD 0 ∧ (r ≠ 0 → s'.next r = 0)
  | malloc l size =>
      q' = dequeue q (l, sizeClass size) ∧ r = storedBody s.mem (q (l, sizeClass size)) ∧
        ∀ a t, q (l, sizeClass size) = a :: t → s'.next a = 0
  | free l ptr =>
      q' = if ptr = 0 then q
        else enqueue q (l, sizeClass (readField s.mem (headerOf ptr) .size)) [headerOf ptr]
  | allocate l core size n _ p => q' = enqueue q (l, sizeClass size)
      ((blocksFrom p (totalSize size) core (bodySize size) n).map Block.addr)
  | swap l dst i => q' = swapped q (l, i) (dst, i)
  | join l lm => q' = Rep.joined q l lm

/-- Run a call: what it returns (0 for a `void` function) and the store afterwards, `none` if it
does not return. -/
def exec (c : Config) (s : Store ι) : ListOp ι → Option (Nat × Store ι)
  | push l i m => some (0, s.push l i m)
  | append l i thead tlast => some (0, s.append l i thead tlast)
  | pop l i => some (s.pop l i)
  | malloc l size => some (s.malloc l size)
  | free l ptr => some (0, s.free l ptr)
  | allocate l core size n touched p => (s.allocate c l core size n touched p).map fun s' => (0, s')
  | swap l dst i => some (0, s.swap l dst i)
  | join l lm => some (0, s.join l lm)

end ListOp

/-- Managers whose lists are empty, and any calls of them. -/
def listSystem (c : Config) (ι : Type) [DecidableEq ι] : TransitionSystem (Lists ι) (ListOp ι) where
  start x := x.made = ∅ ∧ ∀ k, x.store.head k = 0 ∧ x.store.last k = 0
  step x op x' :=
    (∃ r, op.exec c x.store = some (r, x'.store)) ∧ x'.made = x.made ∪ op.listed x.store

/-! ### The invariant -/

namespace Lists

/-- The lists represent `q` over the headers met so far. -/
structure Inv (x : Lists ι) (q : Queues ι) : Prop where
  headers : HeaderSet x.made
  rep : Rep x.made x.store q

namespace Inv

open Store

variable {c : Config} {x : Lists ι} {q : Queues ι} {l lm dst : ι} {i : SizeClass} {s' : Store ι}
  {m r thead tlast core size n p : Nat} {t touched : List Nat} {op : ListOp ι}

theorem unlisted (h : x.Inv q) {a : Nat} (ha : x.store.Unlisted a) : ∀ k, a ∉ q k := fun k =>
  ha k (q k) (h.rep.linked.chain k)

/-- A spare header is a spare chain of one. -/
theorem spare (h : x.Inv q) (hm : x.SpareHeader m) : x.Spare m m [m] := by
  cases hm with
  | inl hmade =>
      obtain ⟨hmade, hunlisted⟩ := hmade
      have hnext : x.store.next m = 0 := h.rep.loose m hmade (h.unlisted hunlisted)
      have hset : x.made ∪ { a | a ∈ [m] } = x.made := by
        refine Set.union_eq_self_of_subset_right fun a ha => ?_
        rw [List.mem_singleton.mp ha]
        exact hmade
      constructor
      case chain => exact ⟨rfl, Nat.ne_of_gt (h.headers.pos m hmade), hnext⟩
      case last => rfl
      case nonempty => exact List.cons_ne_nil m []
      case headers => rw [hset]; exact h.headers
      case unlisted =>
        intro a ha
        rw [List.mem_singleton.mp ha]
        exact hunlisted
  | inr hspare => exact hspare

theorem represents (h : x.Inv q) : x.store.Represents q := h.rep.represents

variable [DecidableEq ι]

theorem start (hx : (listSystem c ι).start x) : x.Inv (fun _ => []) := by
  obtain ⟨hmade, hnull⟩ := hx
  have hhead : x.store.head = fun _ => 0 := funext fun k => (hnull k).1
  have hlast : x.store.last = fun _ => 0 := funext fun k => (hnull k).2
  have hnone : ∀ a, a ∉ x.made := fun a ha => by rwa [hmade] at ha
  refine ⟨⟨fun a ha => absurd ha (hnone a), fun a ha => absurd ha (hnone a),
    fun a ha => absurd ha (hnone a)⟩, ⟨by simp, ?_, fun a ha => absurd ha (hnone a)⟩⟩
  rw [hhead, hlast]
  exact Linked.empty

/-! One step, case by case. -/

/-- A spare chain goes, in order, to the back of one queue. -/
theorem append (h : x.Inv q) (hspare : x.Spare thead tlast t) :
    (⟨x.store.append l i thead tlast, x.made ∪ { a | a ∈ t }⟩ : Lists ι).Inv
      (enqueue q (l, i) t) where
  headers := hspare.headers
  rep := h.rep.append hspare.headers (fun _ ha => Or.inl ha) (fun _ ha => ha) hspare.chain
    hspare.last hspare.nonempty hspare.chain.nodup (fun _ ha => Or.inr ha)
    fun a ha => h.unlisted (hspare.unlisted a ha)

theorem push (h : x.Inv q) (hm : x.SpareHeader m) :
    (⟨x.store.push l i m, x.made ∪ {m}⟩ : Lists ι).Inv (enqueue q (l, i) [m]) := by
  have hset : { a | a ∈ [m] } = ({m} : Set Nat) := by simp
  have happend := h.append (l := l) (i := i) (h.spare hm)
  rwa [hset] at happend

/-- The header taken off has a null link. -/
theorem next_popped {k : ι × SizeClass} (h : x.Inv q) (hq : q k = m :: t)
    (hrep : Rep x.made s' (dequeue q k)) : s'.next m = 0 := by
  have hmade : m ∈ x.made := h.rep.nodes k m (by rw [hq]; exact List.mem_cons_self)
  refine hrep.loose m hmade fun k' hk' => ?_
  exact ((queued_dequeue h.rep.linked.sep hq).mp ⟨k', hk'⟩).2 rfl

theorem pop (h : x.Inv q) (hrun : x.store.pop l i = (r, s')) :
    Rep x.made s' (dequeue q (l, i)) ∧
      (ListOp.pop l i).Effect x.store s' q (dequeue q (l, i)) r := by
  cases hq : q (l, i) with
  | nil =>
      rw [h.rep.pop_nil hq] at hrun
      obtain ⟨rfl, rfl⟩ := Prod.mk.inj hrun
      rw [dequeue_of_nil hq]
      refine ⟨h.rep.setErrno, (dequeue_of_nil hq).symm, ?_, fun hne => absurd rfl hne⟩
      rw [hq]
      rfl
  | cons a t =>
      obtain ⟨hret, hrep, -⟩ := h.rep.pop h.headers hq
      rw [hrun] at hret hrep
      refine ⟨hrep, rfl, ?_, fun _ => ?_⟩
      · rw [hq]
        exact hret
      · exact h.next_popped (hret ▸ hq) hrep

theorem malloc (h : x.Inv q) (hrun : x.store.malloc l size = (r, s')) :
    Rep x.made s' (dequeue q (l, sizeClass size)) ∧
      (ListOp.malloc l size).Effect x.store s' q (dequeue q (l, sizeClass size)) r := by
  obtain ⟨hret, hrep, -⟩ := h.rep.malloc_stored h.headers l size
  rw [hrun] at hret hrep
  exact ⟨hrep, rfl, hret, fun a t hq => h.next_popped hq hrep⟩

theorem swap (h : x.Inv q) : Rep x.made (x.store.swap l dst i) (swapped q (l, i) (dst, i)) := by
  by_cases hself : l = dst
  · -- a list swapped with itself: both caches are assigned the values they have
    subst hself
    have hstore : x.store.swap l l i = x.store := by
      simp only [Store.swap, setHead_self, setLast_self]
    have hqueues : swapped q (l, i) (l, i) = q := by
      rw [swapped, Function.update_idem, Function.update_eq_self]
    rw [hstore, hqueues]
    exact h.rep
  · exact h.rep.swap hself

omit [DecidableEq ι] in
/-- The headers carved into free room lie apart from each other and from the others. -/
theorem headers_carved (core : Nat) (h : x.Inv q) (hroom : x.Room touched p (n * totalSize size)) :
    HeaderSet (x.made ∪
      { a | a ∈ (blocksFrom p (totalSize size) core (bodySize size) n).map Block.addr }) := by
  have hstride := (totalSize_spec size).1
  have hend := hroom.lt
  have hblock : ∀ a ∈ (blocksFrom p (totalSize size) core (bodySize size) n).map Block.addr,
      p ≤ a ∧ a + headerSize ≤ p + n * totalSize size := by
    intro a ha
    obtain ⟨b, hb, rfl⟩ := List.mem_map.mp ha
    have hwithin := blocksFrom_within hstride hb
    simp only [Extent.Within, Block.extent] at hwithin
    omega
  constructor
  case pos =>
    intro a ha
    cases ha with
    | inl hold => exact h.headers.pos a hold
    | inr hnew => exact Nat.lt_of_lt_of_le hroom.pos (hblock a hnew).1
  case lt =>
    intro a ha
    cases ha with
    | inl hold => exact h.headers.lt a hold
    | inr hnew => exact Nat.lt_of_le_of_lt (hblock a hnew).2 hend
  case apart =>
    intro a ha b hb hne
    cases ha with
    | inl ha =>
        cases hb with
        | inl hb => exact h.headers.apart a ha b hb hne
        | inr hb =>
            have hfree := hroom.free a ha
            have hin := hblock b hb
            omega
    | inr ha =>
        cases hb with
        | inl hb =>
            have hfree := hroom.free b hb
            have hin := hblock a ha
            omega
        | inr hb =>
            obtain ⟨_, hi, rfl⟩ := List.mem_map.mp ha
            obtain ⟨_, hj, rfl⟩ := List.mem_map.mp hb
            exact headers_apart (blocksFrom_apart hstride) hi hj hne

/-- `Allocate` puts the blocks it carves, in order, at the back of one queue. -/
theorem allocate (h : x.Inv q) (hn : 1 ≤ n) (hcore : core < c.coreN)
    (hroom : x.Room touched p (n * totalSize size))
    (hrun : x.store.allocate c l core size n touched p = some s') :
    let new := (blocksFrom p (totalSize size) core (bodySize size) n).map Block.addr
    (⟨s', x.made ∪ { a | a ∈ new }⟩ : Lists ι).Inv (enqueue q (l, sizeClass size) new) := by
  intro new
  obtain ⟨out, hcarve, hs'⟩ := Option.map_eq_some_iff.mp hrun
  have hcount : n < 2 ^ 32 := by
    by_contra hbig
    rw [carve_eq_none_iff.mpr (Nat.not_lt.mp hbig)] at hcarve
    exact absurd hcarve (by simp)
  obtain ⟨t, hspec, hcarved⟩ :=
    carve_spec size (clear x.store.mem touched) hroom.pos hroom.lt hcore hcount
  obtain rfl := Option.some.inj (hspec.symm.trans hcarve)
  have hN := h.headers_carved core hroom
  -- neither the touch nor the carving wrote to a header met before
  have hold : ∀ a ∈ x.made, readField t.mem a .next = x.store.next a := by
    intro a ha
    have hfree := hroom.free a ha
    have hclear : readField (clear x.store.mem touched) a .next = x.store.next a := by
      refine readField_congr fun b hb hb' => clear_of_not_mem fun hmem => ?_
      have hout := hroom.cleared a ha b hmem
      omega
    rw [← hclear]
    exact readField_congr fun b hb hb' => hcarved.outside b (by omega)
  let mid : Lists ι := ⟨{ x.store with mem := t.mem }, x.made⟩
  have hmid : mid.Inv q := by
    refine ⟨h.headers, h.rep.nodes, ?_, fun a ha hout => ?_⟩
    · exact h.rep.linked.congr fun k a ha => hold a (h.rep.nodes k a ha)
    · exact (hold a ha).trans (h.rep.loose a ha hout)
  have hspare : mid.Spare t.head t.pre new := by
    constructor
    case chain => exact hcarved.chain
    case last => rw [hcarved.pre, if_neg (by omega), blocksFrom_last hn]
    case nonempty => exact blocksFrom_ne_nil hn
    case headers => exact hN
    case unlisted =>
      -- a header on a list has been met, and none of those lies in the room
      intro a ha k u hu hau
      obtain rfl := hu.unique (hmid.rep.linked.chain k)
      have hmade := hroom.free a (h.rep.nodes k a hau)
      obtain ⟨b, hb, rfl⟩ := List.mem_map.mp ha
      have hwithin := blocksFrom_within (totalSize_spec size).1 hb
      simp only [Extent.Within, Block.extent] at hwithin
      unfold headerSize at *
      omega
  rw [← hs']
  exact hmid.append hspare

/-- **One call** keeps the invariant and has its effect on the queues. -/
theorem step (h : x.Inv q) (hlegal : op.Legal c x) (hrun : op.exec c x.store = some (r, s')) :
    ∃ q', (⟨s', x.made ∪ op.listed x.store⟩ : Lists ι).Inv q' ∧ op.Effect x.store s' q q' r := by
  -- calls that put no new header on a list
  have hkeep : ∀ {q'}, op.listed x.store = ∅ → Rep x.made s' q' →
      (⟨s', x.made ∪ op.listed x.store⟩ : Lists ι).Inv q' := by
    intro q' hnone hrep
    rw [hnone, Set.union_empty]
    exact ⟨h.headers, hrep⟩
  cases op with
  | push l i m =>
      obtain ⟨rfl, rfl⟩ := Prod.mk.inj (Option.some.inj hrun)
      exact ⟨_, h.push hlegal, rfl⟩
  | append l i thead tlast =>
      obtain ⟨rfl, rfl⟩ := Prod.mk.inj (Option.some.inj hrun)
      obtain ⟨t, hspare⟩ := hlegal
      have hlisted : (ListOp.append l i thead tlast).listed x.store = { a | a ∈ t } := by
        ext a
        constructor
        · intro ⟨u, hu, ha⟩
          rwa [hu.unique hspare.chain] at ha
        · intro ha
          exact ⟨t, hspare.chain, ha⟩
      rw [hlisted]
      exact ⟨_, h.append hspare, t, hspare.chain, rfl⟩
  | pop l i =>
      obtain ⟨hrep, heffect⟩ := h.pop (Option.some.inj hrun)
      exact ⟨_, hkeep rfl hrep, heffect⟩
  | malloc l size =>
      obtain ⟨hrep, heffect⟩ := h.malloc (Option.some.inj hrun)
      exact ⟨_, hkeep rfl hrep, heffect⟩
  | free l ptr =>
      obtain ⟨rfl, rfl⟩ := Prod.mk.inj (Option.some.inj hrun)
      by_cases hnull : ptr = 0
      · have hfree : x.store.free l ptr = x.store := if_pos hnull
        have hnone : (ListOp.free l ptr).listed x.store = ∅ := by
          simp [ListOp.listed, hnull]
        refine ⟨q, hkeep hnone ?_, (if_pos hnull).symm⟩
        rw [hfree]
        exact h.rep
      · have hfree : x.store.free l ptr = x.store.push l
            (sizeClass (readField x.store.mem (headerOf ptr) .size)) (headerOf ptr) := if_neg hnull
        have hlisted : (ListOp.free l ptr).listed x.store = {headerOf ptr} := by
          ext a
          simp [ListOp.listed, hnull]
        rw [hfree, hlisted]
        exact ⟨_, h.push (hlegal.resolve_left hnull), (if_neg hnull).symm⟩
  | allocate l core size n touched p =>
      obtain ⟨s₁, halloc, heq⟩ := Option.map_eq_some_iff.mp hrun
      obtain ⟨rfl, rfl⟩ := Prod.mk.inj heq
      obtain ⟨hn, hcore, hroom⟩ := hlegal
      exact ⟨_, h.allocate hn hcore hroom halloc, rfl⟩
  | swap l dst i =>
      obtain ⟨rfl, rfl⟩ := Prod.mk.inj (Option.some.inj hrun)
      exact ⟨_, hkeep rfl h.swap, rfl⟩
  | join l lm =>
      obtain ⟨rfl, rfl⟩ := Prod.mk.inj (Option.some.inj hrun)
      exact ⟨_, hkeep rfl (h.rep.join h.headers hlegal).1, rfl⟩

end Inv

end Lists

/-! ### Runs -/

section Runs

variable [DecidableEq ι] {c : Config} {x : Lists ι}

/-- **Every state of a run** represents a family of queues. -/
theorem Lists.inv_of_run (hrun : (listSystem c ι).Run (fun x op => op.Legal c x) x) :
    ∃ q, x.Inv q := by
  refine hrun.invariant (motive := fun x => ∃ q, x.Inv q) (fun x hx => ⟨_, Lists.Inv.start hx⟩) ?_
  intro x op x' ⟨q, h⟩ hlegal ⟨⟨r, hexec⟩, hmade⟩
  obtain ⟨q', h', -⟩ := h.step hlegal hexec
  rw [← hmade] at h'
  exact ⟨q', h'⟩

/-- Only an `Allocate` with a count out of reach does not return. -/
theorem ListOp.exec_eq_none_iff {s : Store ι} {op : ListOp ι} :
    op.exec c s = none ↔ op.Endless := by
  cases op with
  | allocate l core size n touched p =>
      rw [ListOp.exec, Option.map_eq_none_iff, Store.allocate, Option.map_eq_none_iff]
      exact carve_eq_none_iff
  | push => exact iff_of_false (by simp [ListOp.exec]) id
  | append => exact iff_of_false (by simp [ListOp.exec]) id
  | pop => exact iff_of_false (by simp [ListOp.exec]) id
  | malloc => exact iff_of_false (by simp [ListOp.exec]) id
  | free => exact iff_of_false (by simp [ListOp.exec]) id
  | swap => exact iff_of_false (by simp [ListOp.exec]) id
  | join => exact iff_of_false (by simp [ListOp.exec]) id

/-- **The lists refine FIFO queues**: the caches and links of every state reached represent a
family of queues, and every legal call from there that is not endless returns and has its effect
on them. -/
theorem lists_refine_queues (hrun : (listSystem c ι).Run (fun x op => op.Legal c x) x) :
    ∃ q, x.store.Represents q ∧ ∀ op : ListOp ι, op.Legal c x →
      (op.exec c x.store = none ↔ op.Endless) ∧
      ∀ r s', op.exec c x.store = some (r, s') →
        ∃ q', s'.Represents q' ∧ op.Effect x.store s' q q' r := by
  obtain ⟨q, h⟩ := Lists.inv_of_run hrun
  refine ⟨q, h.represents, fun op hlegal => ⟨ListOp.exec_eq_none_iff, ?_⟩⟩
  intro r s' hexec
  obtain ⟨q', h', heffect⟩ := h.step hlegal hexec
  exact ⟨q', h'.represents, heffect⟩

end Runs

/-! Two managers in zero-filled memory. Three blocks are carved for the second one, and the first
of them is popped and freed into the other. -/

def blankLists : Lists Bool := ⟨⟨fun _ => 0, fun _ => .init, 0⟩, ∅⟩

/-- `Allocate(0, 8, 3)` of the second manager. -/
def carveThree : ListOp Bool := .allocate true 0 8 3 [] 65536

theorem carveThree_made : (carveThree.exec MmapManager.oneCore blankLists.store).isSome = true := by
  decide +kernel

def carvedLists : Lists Bool :=
  ⟨(Option.get _ carveThree_made).2, blankLists.made ∪ carveThree.listed blankLists.store⟩

/-- The second manager has given up its first block. -/
def poppedLists : Lists Bool := ⟨(carvedLists.store.malloc true 8).2, carvedLists.made ∪ ∅⟩

theorem poppedLists_run :
    (listSystem MmapManager.oneCore Bool).Run (fun x op => op.Legal MmapManager.oneCore x)
      poppedLists := by
  have hcarved : (listSystem MmapManager.oneCore Bool).Run
      (fun x op => op.Legal MmapManager.oneCore x) carvedLists := by
    refine .step (a := carveThree) (.start (s := blankLists) ⟨rfl, fun _ => ⟨rfl, rfl⟩⟩)
      ⟨by decide, by decide, ?_⟩ ⟨⟨_, (Option.some_get carveThree_made).symm⟩, rfl⟩
    exact ⟨by decide, by decide, fun a ha => absurd ha (Set.notMem_empty a),
      fun a ha => absurd ha (Set.notMem_empty a)⟩
  exact .step (a := .malloc true 8) hcarved trivial ⟨⟨_, rfl⟩, rfl⟩

/-- What is left on the one list that is not empty. -/
theorem poppedLists_chain : Chain 0 poppedLists.store.next (poppedLists.store.head (true, 3))
    [65600, 65664] := by
  refine ⟨?_, by decide, ?_, by decide, ?_⟩
  · decide +kernel
  · decide +kernel
  · show poppedLists.store.next 65664 = 0
    decide +kernel

theorem poppedLists_head : ∀ i : SizeClass, poppedLists.store.head (false, i) = 0 ∧
    (i = 3 ∨ poppedLists.store.head (true, i) = 0) := by
  decide +kernel

/-- The first block is on the list of the first manager, the others on that of the second. -/
def freedLists : Lists Bool :=
  ⟨poppedLists.store.free false 65584, poppedLists.made ∪
    (ListOp.free false 65584).listed poppedLists.store⟩

theorem freedLists_run :
    (listSystem MmapManager.oneCore Bool).Run (fun x op => op.Legal MmapManager.oneCore x)
      freedLists := by
  have hmade : 65536 ∈ poppedLists.made := by
    refine Or.inl (Or.inr ?_)
    show 65536 ∈ (blocksFrom 65536 (totalSize 8) 0 (bodySize 8) 3).map Block.addr
    decide +kernel
  refine .step (a := .free false 65584) poppedLists_run (Or.inr (Or.inl ⟨hmade, ?_⟩))
    ⟨⟨0, rfl⟩, rfl⟩
  rintro ⟨l, i⟩ t ht
  obtain ⟨hfirst, hsecond⟩ := poppedLists_head i
  cases l with
  | false =>
      rw [ht.head_eq_null_iff.mp hfirst]
      exact List.not_mem_nil
  | true =>
      obtain rfl | hnull := hsecond
      · rw [ht.unique poppedLists_chain]
        decide
      · rw [ht.head_eq_null_iff.mp hnull]
        exact List.not_mem_nil

theorem freedLists_refine : ∃ q, freedLists.store.Represents q ∧
    (q (true, 3) = [65600, 65664] ∧ q (false, 3) = [65536]) ∧
    ∀ op : ListOp Bool, op.Legal MmapManager.oneCore freedLists →
      (op.exec MmapManager.oneCore freedLists.store = none ↔ op.Endless) ∧
      ∀ r s', op.exec MmapManager.oneCore freedLists.store = some (r, s') →
        ∃ q', s'.Represents q' ∧ op.Effect freedLists.store s' q q' r := by
  obtain ⟨q, hq, hops⟩ := lists_refine_queues freedLists_run
  refine ⟨q, hq, ⟨(hq.reaches (true, 3)).unique ⟨?_, by decide, ?_, by decide, ?_⟩,
    (hq.reaches (false, 3)).unique ⟨?_, by decide, ?_⟩⟩, hops⟩
  · decide +kernel
  · decide +kernel
  · show freedLists.store.next 65664 = 0
    decide +kernel
  · decide +kernel
  · show freedLists.store.next 65536 = 0
    decide +kernel

/-- **A count of -1**, of which `mm.Malloc` has been asked for no bytes at all: the `Allocate`
never comes back. -/
theorem not_lists_refine_queues : ¬ ∀ (c : Config) (x : Lists Bool),
    (listSystem c Bool).Run (fun x op => op.Legal c x) x →
    ∃ q, x.store.Represents q ∧ ∀ l core size n touched p, 1 ≤ n → n < 2 ^ 64 → core < c.coreN →
      x.Room touched p (mmapSize c size n) →
      ∃ r s' q', (ListOp.allocate l core size n touched p).exec c x.store = some (r, s') ∧
        s'.Represents q' ∧
        (ListOp.allocate l core size n touched p).Effect x.store s' q q' r := by
  intro hall
  obtain ⟨q, -, hops⟩ := hall MmapManager.oneCore blankLists
    (.start ⟨rfl, fun _ => ⟨rfl, rfl⟩⟩)
  have hroom : blankLists.Room [] 0x7f0000000000 (mmapSize MmapManager.oneCore 8 (toSizeT (-1))) :=
    ⟨by decide, by decide, fun a ha => absurd ha (Set.notMem_empty a),
      fun a ha => absurd ha (Set.notMem_empty a)⟩
  obtain ⟨r, s', -, hexec, -⟩ := hops true 0 8 (toSizeT (-1)) [] 0x7f0000000000 (by decide) (by decide)
    (by decide) hroom
  have hendless : (ListOp.allocate true 0 8 (toSizeT (-1)) [] 0x7f0000000000).Endless :=
    show 2 ^ 32 ≤ toSizeT (-1) by decide
  rw [ListOp.exec_eq_none_iff.mpr hendless] at hexec
  exact absurd hexec (by simp)

end FCMalloc
