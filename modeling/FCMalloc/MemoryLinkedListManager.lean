import FCMalloc.Library.IntrusiveQueue
import FCMalloc.MemoryLinkedList

/-!
# FCMalloc.MemoryLinkedListManager

The free lists of `memory_linked_list_manager.cpp` and the queues they represent.

A `Store` is byte memory with a family of managers, each caching a first and a last
header for every size class. The operations are the C++ ones: they read and write
these caches and the `next_` members in memory, and nothing else.

`Rep N s q` says that the store represents the queues `q` over the headers `N`: the
caches and `next_` members link exactly `q`, and a header on no queue has a null
`next_`. Each operation has one theorem for what it does to `q`. `OnlyLinks` is
their common frame condition: no byte changes outside `next_` members.
-/

namespace FCMalloc

open ByteMemory

/-- `MemoryLinkedListManager`, without its copy of the core count. -/
structure MemoryLinkedListManager where
  heads : SizeClass → Nat
  lasts : SizeClass → Nat

/-- `MemoryLinkedListManager::Init`. -/
def MemoryLinkedListManager.init : MemoryLinkedListManager := ⟨fun _ => 0, fun _ => 0⟩

/-- `ENOMEM`. -/
def enomem : Nat := 12

/-- Memory, the managers `ι` in it, and the `errno` of the running thread. -/
structure Store (ι : Type) where
  mem : Memory
  lists : ι → MemoryLinkedListManager
  errno : Nat

namespace Store

variable {ι : Type}

/-- `m->GetNext()`. -/
def next (s : Store ι) (m : Nat) : Nat := readField s.mem m .next

/-- `heads_[index]` of a manager. -/
def head (s : Store ι) (k : ι × SizeClass) : Nat := (s.lists k.1).heads k.2

/-- `lasts_[index]` of a manager. -/
def last (s : Store ι) (k : ι × SizeClass) : Nat := (s.lists k.1).lasts k.2

/-- `m->SetNext(v)`. -/
def setNext (s : Store ι) (m v : Nat) : Store ι := { s with mem := writeField s.mem m .next v }

@[simp] theorem setNext_head (s : Store ι) (m v : Nat) : (s.setNext m v).head = s.head := rfl
@[simp] theorem setNext_last (s : Store ι) (m v : Nat) : (s.setNext m v).last = s.last := rfl

variable [DecidableEq ι]

/-- Assign `heads_[index]`. -/
def setHead (s : Store ι) (l : ι) (index : SizeClass) (v : Nat) : Store ι :=
  let lm := s.lists l
  { s with lists := Function.update s.lists l { lm with heads := Function.update lm.heads index v } }

/-- Assign `lasts_[index]`. -/
def setLast (s : Store ι) (l : ι) (index : SizeClass) (v : Nat) : Store ι :=
  let lm := s.lists l
  { s with lists := Function.update s.lists l { lm with lasts := Function.update lm.lasts index v } }

/-! ### Operations -/

/-- `append`. -/
def append (s : Store ι) (l : ι) (index : SizeClass) (thead tlast : Nat) : Store ι :=
  if s.head (l, index) = 0 then (s.setHead l index thead).setLast l index tlast
  else (s.setNext (s.last (l, index)) thead).setLast l index tlast

/-- `push`. -/
def push (s : Store ι) (l : ι) (index : SizeClass) (m : Nat) : Store ι := s.append l index m m

/-- `pop`: the header unlinked, `nullptr` with `ENOMEM` if there is none. -/
def pop (s : Store ι) (l : ι) (index : SizeClass) : Nat × Store ι :=
  if s.head (l, index) = 0 ∨ s.last (l, index) = 0 then (0, { s with errno := enomem })
  else
    let ret := s.head (l, index)
    let newHead := s.next ret
    let s := s.setNext ret 0
    let s := if newHead ≠ 0 then s else s.setLast l index 0
    (ret, s.setHead l index newHead)

/-- The loop of `popN` with `rounds` rounds left, from header `tmp` on: the header it ends at,
or `none` for a member read through `nullptr`. -/
def popNLoop (s : Store ι) : (rounds : Nat) → (tmp : Nat) → Option Nat
  | 0, tmp => some tmp
  | rounds + 1, tmp =>
      if tmp = 0 then none
      else if s.next tmp ≠ 0 then popNLoop s rounds (s.next tmp)
      else some tmp

/-- `popN`, which nothing calls: `none` if it reads or writes a member through `nullptr`.
The search for the new last header starts behind the head. -/
def popN (s : Store ι) (l : ι) (index : SizeClass) (n : Int) : Option (Nat × Store ι) :=
  if s.head (l, index) = 0 ∨ s.last (l, index) = 0 then some (0, { s with errno := enomem })
  else
    let ret := s.head (l, index)
    (s.popNLoop (n - 1).toNat (s.next ret)).bind fun newLast =>
      if newLast = 0 then none
      else
        let head := s.next newLast
        let s := (s.setHead l index head).setNext newLast 0
        some (ret, if head ≠ 0 then s else s.setLast l index 0)

/-- `Malloc`: the body address of the header unlinked. -/
def malloc [ClzZero] (s : Store ι) (l : ι) (size : Nat) : Nat × Store ι :=
  let index := sizeClass size
  if s.head (l, index) = 0 ∨ s.last (l, index) = 0 then (0, { s with errno := enomem })
  else
    let ptr := readField s.mem (s.head (l, index)) .bodyAddr
    (ptr, (s.pop l index).2)

/-- `Free`: the class is that of the body size stored in the header. -/
def free [ClzZero] (s : Store ι) (l : ι) (ptr : Nat) : Store ι :=
  if ptr = 0 then s
  else
    let m := headerOf ptr
    s.push l (sizeClass (readField s.mem m .size)) m

/-- `Swap(dst, index)`. -/
def swap (s : Store ι) (l dst : ι) (index : SizeClass) : Store ι :=
  let head := s.head (l, index)
  let last := s.last (l, index)
  let s := (s.setHead l index (s.head (dst, index))).setHead dst index head
  (s.setLast l index (s.last (dst, index))).setLast dst index last

/-- One round of the loop of `Join`. -/
def joinClass (s : Store ι) (l lm : ι) (i : SizeClass) : Store ι :=
  if s.head (lm, i) ≠ 0 then
    ((s.append l i (s.head (lm, i)) (s.last (lm, i))).setHead lm i 0).setLast lm i 0
  else s

/-- `Join(lm)`. -/
def join (s : Store ι) (l lm : ι) : Store ι :=
  (List.finRange numClasses).foldl (fun s i => s.joinClass l lm i) s

/-! ### Assignments -/

section Assign

variable (s : Store ι) (l : ι) (i : SizeClass) (v : Nat)

@[simp] theorem setHead_mem : (s.setHead l i v).mem = s.mem := rfl
@[simp] theorem setLast_mem : (s.setLast l i v).mem = s.mem := rfl
@[simp] theorem setHead_next : (s.setHead l i v).next = s.next := rfl
@[simp] theorem setLast_next : (s.setLast l i v).next = s.next := rfl

@[simp] theorem setHead_head : (s.setHead l i v).head = Function.update s.head (l, i) v := by
  funext ⟨l', i'⟩
  by_cases hl : l' = l
  · subst hl
    by_cases hi : i' = i <;> simp [head, setHead, hi]
  · simp [head, setHead, hl]

@[simp] theorem setLast_last : (s.setLast l i v).last = Function.update s.last (l, i) v := by
  funext ⟨l', i'⟩
  by_cases hl : l' = l
  · subst hl
    by_cases hi : i' = i <;> simp [last, setLast, hi]
  · simp [last, setLast, hl]

@[simp] theorem setHead_last : (s.setHead l i v).last = s.last := by
  funext ⟨l', i'⟩
  by_cases hl : l' = l
  · subst hl
    simp [last, setHead]
  · simp [last, setHead, hl]

@[simp] theorem setLast_head : (s.setLast l i v).head = s.head := by
  funext ⟨l', i'⟩
  by_cases hl : l' = l
  · subst hl
    simp [head, setLast]
  · simp [head, setLast, hl]

/-- Assigning a cache the value it has. -/
theorem setHead_self : s.setHead l i (s.head (l, i)) = s := by
  simp only [setHead, head, Function.update_eq_self]

theorem setLast_self : s.setLast l i (s.last (l, i)) = s := by
  simp only [setLast, last, Function.update_eq_self]

end Assign

/-! ### Frame -/

section Frame

variable {s : Store ι} {l l' lm : ι} {i : SizeClass} {v thead tlast : Nat}

theorem setHead_lists_of_ne (h : l' ≠ l) : (s.setHead l i v).lists l' = s.lists l' :=
  Function.update_of_ne h _ _

theorem setLast_lists_of_ne (h : l' ≠ l) : (s.setLast l i v).lists l' = s.lists l' :=
  Function.update_of_ne h _ _

theorem append_lists_of_ne (h : l' ≠ l) : (s.append l i thead tlast).lists l' = s.lists l' := by
  unfold append
  split <;> simp only [setLast_lists_of_ne h, setHead_lists_of_ne h, setNext]

theorem pop_lists_of_ne (h : l' ≠ l) : (s.pop l i).2.lists l' = s.lists l' := by
  unfold pop
  split
  · rfl
  · dsimp only
    rw [setHead_lists_of_ne h]
    split
    · rfl
    · rw [setLast_lists_of_ne h]
      rfl

theorem malloc_lists_of_ne {size : Nat} (h : l' ≠ l) :
    (s.malloc l size).2.lists l' = s.lists l' := by
  unfold malloc
  dsimp only
  split
  · rfl
  · dsimp only
    rw [pop_lists_of_ne h]

theorem free_lists_of_ne {ptr : Nat} (h : l' ≠ l) : (s.free l ptr).lists l' = s.lists l' := by
  unfold free
  split
  · rfl
  · exact append_lists_of_ne h

theorem swap_lists_of_ne (h : l' ≠ l) (h' : l' ≠ lm) : (s.swap l lm i).lists l' = s.lists l' := by
  unfold swap
  dsimp only
  rw [setLast_lists_of_ne h', setLast_lists_of_ne h, setHead_lists_of_ne h', setHead_lists_of_ne h]

/-- `Join` of a manager whose lists are empty does nothing. -/
theorem join_of_null (hlm : ∀ i, s.head (lm, i) = 0) : s.join l lm = s := by
  have hround : ∀ i, s.joinClass l lm i = s := fun i => if_neg (not_not.mpr (hlm i))
  unfold join
  induction List.finRange numClasses with
  | nil => rfl
  | cons i is ih => rw [List.foldl_cons, hround, ih]

/-- `Join` assigns the caches of its two managers only. -/
theorem join_lists_of_ne (h : l' ≠ l) (h' : l' ≠ lm) : (s.join l lm).lists l' = s.lists l' := by
  have hround : ∀ (s : Store ι) i, (s.joinClass l lm i).lists l' = s.lists l' := by
    intro s i
    unfold joinClass
    split
    · rw [setLast_lists_of_ne h', setHead_lists_of_ne h', append_lists_of_ne h]
    · rfl
  unfold join
  induction List.finRange numClasses generalizing s with
  | nil => rfl
  | cons i is ih => rw [List.foldl_cons, ih, hround]

end Frame

end Store

/-! ### Headers and links -/

/-- Addresses at which headers may lie at the same time. -/
structure HeaderSet (N : Set Nat) : Prop where
  pos : ∀ a ∈ N, 0 < a
  lt : ∀ a ∈ N, a + headerSize < 2 ^ 64
  apart : ∀ a ∈ N, ∀ b ∈ N, a ≠ b → a + headerSize ≤ b ∨ b + headerSize ≤ a

/-- `m'` differs from `m` at most in the `next_` members of headers in `N`. -/
def OnlyLinks (N : Set Nat) (m m' : Memory) : Prop :=
  ∀ x, (∀ a ∈ N, x < a + Field.next.offset ∨ a + Field.next.offset + 8 ≤ x) → m' x = m x

namespace OnlyLinks

variable {N : Set Nat} {m m' m'' : Memory} {a v x : Nat} {f : Field}

theorem refl (m : Memory) : OnlyLinks N m m := fun _ _ => rfl

theorem trans (h : OnlyLinks N m m') (h' : OnlyLinks N m' m'') : OnlyLinks N m m'' :=
  fun x hx => (h' x hx).trans (h x hx)

theorem writeNext (ha : a ∈ N) : OnlyLinks N m (writeField m a .next v) :=
  fun _ hx => writeLE_of_outside (hx a ha)

/-- Bytes outside every header are unchanged. -/
theorem of_outside (h : OnlyLinks N m m') (hx : ∀ a ∈ N, x < a ∨ a + headerSize ≤ x) :
    m' x = m x := by
  refine h x fun a ha => ?_
  have := hx a ha
  simp only [Field.offset, headerSize] at *
  omega

/-- Every other member is unchanged. -/
theorem field (hN : HeaderSet N) (h : OnlyLinks N m m') (ha : a ∈ N) (hf : f ≠ .next) :
    readField m' a f = readField m a f := by
  have hin := f.offset_le
  have hout := Field.offset_apart hf
  refine readLE_congr fun x hx hx' => h x fun b hb => ?_
  by_cases hab : b = a
  · subst hab
    omega
  · have hnext := Field.next.offset_le
    have := hN.apart b hb a ha hab
    omega

theorem headed {c : Config} {b : Block} (hN : HeaderSet N) (h : OnlyLinks N m m')
    (ha : b.addr ∈ N) (hb : Headed c m b) : Headed c m' b :=
  hb.congr fun _ hf => h.field hN ha hf

end OnlyLinks

/-! ### Representation -/

/-- The store represents the queues `q` over the headers `N`. -/
structure Rep {ι : Type} (N : Set Nat) (s : Store ι) (q : ι × SizeClass → List Nat) : Prop where
  nodes : ∀ k, ∀ a ∈ q k, a ∈ N
  linked : Linked 0 s.next s.head s.last q
  loose : ∀ a ∈ N, (∀ k, a ∉ q k) → s.next a = 0

/-- The body of the front of a queue, `nullptr` if the queue is empty. -/
def frontBody : List Nat → Nat
  | [] => 0
  | a :: _ => a + headerSize

/-- The address the front of a queue stores in `bodyAddr_`, `nullptr` if the queue is empty. -/
def storedBody (mem : Memory) : List Nat → Nat
  | [] => 0
  | a :: _ => readField mem a .bodyAddr

namespace Rep

open Store

variable {ι : Type} {N N' : Set Nat} {s : Store ι} {q : ι × SizeClass → List Nat}
  {l lm dst : ι} {i : SizeClass} {a b v m thead tlast : Nat} {c t : List Nat}

/-- Assigning one `next_` member changes the successor of that header only. -/
theorem setNext_next (hN : HeaderSet N) (ha : a ∈ N) (hb : b ∈ N) (hv : v < 2 ^ 64) :
    (s.setNext a v).next b = Function.update s.next a v b := by
  by_cases hba : b = a
  · subst hba
    rw [Function.update_self]
    exact readField_writeField_self hv
  · rw [Function.update_of_ne hba]
    exact readField_writeField_of_apart (hN.apart a ha b hb (Ne.symm hba))

/-- The representation does not mention `errno`. -/
theorem setErrno {e : Nat} (h : Rep N s q) : Rep N { s with errno := e } q :=
  ⟨h.nodes, h.linked, h.loose⟩

theorem last_mem (h : Linked 0 s.next s.head s.last q) (hne : s.head (l, i) ≠ 0) :
    s.last (l, i) ∈ q (l, i) := by
  have hq : q (l, i) ≠ [] := mt h.head_eq_null_iff.mpr hne
  obtain ⟨t, z, hz⟩ := (List.eq_nil_or_concat' (q (l, i))).resolve_left hq
  rw [h.last_eq, hz]
  simp

/-- The caches of an empty queue. -/
theorem caches_of_nil (h : Rep N s q) (hq : q (l, i) = []) :
    s.head (l, i) = 0 ∧ s.last (l, i) = 0 :=
  ⟨h.linked.head_eq_null_iff.mpr hq, h.linked.last_eq_null_iff.mpr hq⟩

/-- The caches of a queue with first header `a`. -/
theorem caches_of_cons (h : Rep N s q) (hq : q (l, i) = a :: t) :
    s.head (l, i) = a ∧ ¬ (s.head (l, i) = 0 ∨ s.last (l, i) = 0) := by
  have hchain := h.linked.chain (l, i)
  rw [hq] at hchain
  refine ⟨hchain.1, ?_⟩
  rw [h.linked.head_eq_null_iff, h.linked.last_eq_null_iff, hq]
  simp

variable [DecidableEq ι]

theorem append_next (hN : HeaderSet N) (hlast : s.head (l, i) ≠ 0 → s.last (l, i) ∈ N) (ha : a ∈ N)
    (hthead : thead < 2 ^ 64) : (s.append l i thead tlast).next a =
      (if s.head (l, i) = 0 then s.next else Function.update s.next (s.last (l, i)) thead) a := by
  unfold Store.append
  split
  · simp
  case isFalse hne =>
    rw [setLast_next]
    exact setNext_next hN (hlast hne) ha hthead

/-- The successor of a header that is not on the receiving queue is unchanged. -/
theorem append_next_of_not_mem (hN : HeaderSet N) (hnodes : ∀ k, ∀ a ∈ q k, a ∈ N)
    (h : Linked 0 s.next s.head s.last q) (ha : a ∈ N) (hthead : thead < 2 ^ 64)
    (hout : a ∉ q (l, i)) : (s.append l i thead tlast).next a = s.next a := by
  rw [append_next hN (fun hhead => hnodes _ _ (last_mem h hhead)) ha hthead]
  split
  · rfl
  case isFalse hhead =>
    have hal : a ≠ s.last (l, i) := by
      rintro rfl
      exact hout (last_mem h hhead)
    exact Function.update_of_ne hal _ _

@[simp] theorem append_head : (s.append l i thead tlast).head =
    Function.update s.head (l, i) (if s.head (l, i) = 0 then thead else s.head (l, i)) := by
  unfold Store.append
  split
  · simp
  · simp

@[simp] theorem append_last :
    (s.append l i thead tlast).last = Function.update s.last (l, i) tlast := by
  unfold Store.append
  split <;> simp

/-- Appending writes at most one `next_` member, of the last header of the queue. -/
theorem append_onlyLinks (hnodes : ∀ k, ∀ a ∈ q k, a ∈ N)
    (h : Linked 0 s.next s.head s.last q) :
    OnlyLinks N s.mem (s.append l i thead tlast).mem := by
  unfold Store.append
  split
  · exact OnlyLinks.refl _
  case isFalse hne => exact OnlyLinks.writeNext (hnodes _ _ (last_mem h hne))

/-- **Append** puts a chain of unqueued headers, in order, at the back of one queue. -/
theorem append_linked (hN : HeaderSet N) (hnodes : ∀ k, ∀ a ∈ q k, a ∈ N)
    (h : Linked 0 s.next s.head s.last q) (hc : Chain 0 s.next thead c)
    (htlast : tlast = c.getLastD 0) (hne : c ≠ []) (hnd : c.Nodup) (hcN : ∀ a ∈ c, a ∈ N)
    (hfresh : ∀ a ∈ c, ∀ k, a ∉ q k) :
    Linked 0 (s.append l i thead tlast).next (s.append l i thead tlast).head
      (s.append l i thead tlast).last (enqueue q (l, i) c) := by
  have hthead : thead < 2 ^ 64 := by
    cases c with
    | nil => exact absurd rfl hne
    | cons b t =>
        have := hN.lt b (hcN b List.mem_cons_self)
        rw [hc.1]
        omega
  have hlast : s.head (l, i) ≠ 0 → s.last (l, i) ∈ N := fun hhead =>
    hnodes _ _ (last_mem h hhead)
  rw [append_head, append_last]
  refine Linked.congr (fun k a ha => ?_) (h.append hc htlast hne hnd hfresh)
  refine append_next hN hlast ?_ hthead
  rcases mem_enqueue.mp ha with ha | ⟨-, ha⟩
  · exact hnodes _ a ha
  · exact hcN a ha

/-- `append` of a chain of headers that are on no queue, which may be new. -/
theorem append (hN : HeaderSet N') (hsub : ∀ a ∈ N, a ∈ N') (hcover : ∀ a ∈ N', a ∈ N ∨ a ∈ c)
    (h : Rep N s q) (hc : Chain 0 s.next thead c) (htlast : tlast = c.getLastD 0) (hne : c ≠ [])
    (hnd : c.Nodup) (hcN : ∀ a ∈ c, a ∈ N') (hfresh : ∀ a ∈ c, ∀ k, a ∉ q k) :
    Rep N' (s.append l i thead tlast) (enqueue q (l, i) c) where
  nodes k a ha := by
    rcases mem_enqueue.mp ha with ha | ⟨-, ha⟩
    · exact hsub a (h.nodes k a ha)
    · exact hcN a ha
  linked := append_linked hN (fun k a ha => hsub a (h.nodes k a ha)) h.linked hc htlast hne hnd
    hcN hfresh
  loose a ha hout := by
    have hac : a ∉ c := fun hac => hout (l, i) (mem_enqueue.mpr (Or.inr ⟨rfl, hac⟩))
    have hqueues : ∀ k, a ∉ q k := fun k hak => hout k (mem_enqueue.mpr (Or.inl hak))
    have haN : a ∈ N := (hcover a ha).resolve_right hac
    have hthead : thead < 2 ^ 64 := by
      cases c with
      | nil => exact absurd rfl hne
      | cons b t =>
          have := hN.lt b (hcN b List.mem_cons_self)
          rw [hc.1]
          omega
    rw [append_next_of_not_mem hN (fun k b hb => hsub b (h.nodes k b hb)) h.linked ha hthead
      (hqueues _)]
    exact h.loose a haN hqueues

/-- Appending an empty chain to an empty queue changes nothing. -/
theorem append_null (h : Rep N s q) (hq : q (l, i) = []) : s.append l i 0 0 = s := by
  obtain ⟨hhead, hlast⟩ := h.caches_of_nil hq
  have hset : s.setHead l i 0 = s := by
    rw [← hhead]
    exact setHead_self s l i
  rw [Store.append, if_pos hhead, hset, ← hlast]
  exact setLast_self s l i

/-- `push` enqueues one loose header at the back. -/
theorem push (hN : HeaderSet N) (h : Rep N s q) (hm : m ∈ N) (hloose : ∀ k, m ∉ q k) :
    Rep N (s.push l i m) (enqueue q (l, i) [m]) ∧
      OnlyLinks N s.mem (s.push l i m).mem := by
  have hchain : Chain 0 s.next m [m] := ⟨rfl, Nat.ne_of_gt (hN.pos m hm), h.loose m hm hloose⟩
  exact ⟨h.append hN (fun _ ha => ha) (fun _ ha => Or.inl ha) hchain rfl (List.cons_ne_nil m [])
    (List.nodup_singleton m) (by simpa using hm) (by simpa using hloose),
    append_onlyLinks h.nodes h.linked⟩

/-- `pop` on an empty queue only sets `errno`. -/
theorem pop_nil (h : Rep N s q) (hq : q (l, i) = []) :
    s.pop l i = (0, { s with errno := enomem }) :=
  if_pos (Or.inl (h.caches_of_nil hq).1)

/-- **Pop** dequeues the front and leaves it loose. -/
theorem pop (hN : HeaderSet N) (h : Rep N s q) (hq : q (l, i) = a :: t) :
    (s.pop l i).1 = a ∧ Rep N (s.pop l i).2 (dequeue q (l, i)) ∧
      OnlyLinks N s.mem (s.pop l i).2.mem := by
  obtain ⟨hhead, hfull⟩ := h.caches_of_cons hq
  have haq : a ∈ q (l, i) := by simp [hq]
  have haN : a ∈ N := h.nodes _ a haq
  -- the store after `pop`: one `next_` member and two caches differ
  have hnext : (s.pop l i).2.next = (s.setNext a 0).next := by
    rw [Store.pop, if_neg hfull, hhead]
    dsimp only
    split <;> simp
  have hheads : (s.pop l i).2.head = Function.update s.head (l, i) (s.next a) := by
    rw [Store.pop, if_neg hfull, hhead]
    dsimp only
    split <;> simp
  have hlasts : (s.pop l i).2.last =
      Function.update s.last (l, i) (if s.next a = 0 then 0 else s.last (l, i)) := by
    rw [Store.pop, if_neg hfull, hhead]
    dsimp only
    by_cases hnull : s.next a = 0
    · simp [hnull]
    · simp [hnull]
  have hmem : (s.pop l i).2.mem = (s.setNext a 0).mem := by
    rw [Store.pop, if_neg hfull, hhead]
    dsimp only
    split <;> simp
  have hpopped : ∀ b ∈ N, (s.pop l i).2.next b = Function.update s.next a 0 b := fun b hb => by
    rw [hnext, setNext_next hN haN hb (by decide)]
  have htail : dequeue q (l, i) = Function.update q (l, i) t := by rw [dequeue, hq, List.tail_cons]
  refine ⟨by rw [Store.pop, if_neg hfull, hhead], ⟨?_, ?_, ?_⟩, ?_⟩
  · exact fun k b hb => h.nodes k b (mem_of_mem_dequeue hb)
  · rw [hheads, hlasts]
    refine Linked.congr (fun k b hb => hpopped b (h.nodes k b (mem_of_mem_dequeue hb))) ?_
    rw [htail]
    exact h.linked.pop hq
  · intro b hb hout
    rw [hpopped b hb]
    by_cases hba : b = a
    · rw [hba, Function.update_self]
    · rw [Function.update_of_ne hba]
      refine h.loose b hb fun k hbk => hout k ?_
      rw [htail, Function.update_apply]
      split
      case isTrue hk =>
        rw [hk, hq] at hbk
        exact (List.mem_cons.mp hbk).resolve_left hba
      · exact hbk
  · rw [hmem]
    exact OnlyLinks.writeNext haN

/-- `Malloc` dequeues the front and hands out the address stored in it. -/
theorem malloc_stored (hN : HeaderSet N) (h : Rep N s q) (l : ι) (size : Nat) :
    (s.malloc l size).1 = storedBody s.mem (q (l, sizeClass size)) ∧
      Rep N (s.malloc l size).2 (dequeue q (l, sizeClass size)) ∧
      OnlyLinks N s.mem (s.malloc l size).2.mem := by
  cases hq : q (l, sizeClass size) with
  | nil =>
      have hmalloc : s.malloc l size = (0, { s with errno := enomem }) :=
        if_pos (Or.inl (h.caches_of_nil hq).1)
      rw [hmalloc, dequeue_of_nil hq]
      exact ⟨rfl, h.setErrno, OnlyLinks.refl _⟩
  | cons a t =>
      obtain ⟨hhead, hfull⟩ := h.caches_of_cons hq
      obtain ⟨-, hpop, hlinks⟩ := h.pop hN hq
      rw [Store.malloc, if_neg hfull, hhead]
      exact ⟨rfl, hpop, hlinks⟩

/-- `Malloc` hands out the body of the front. -/
theorem malloc {size : Nat} (hN : HeaderSet N) (h : Rep N s q)
    (hbody : ∀ a ∈ N, readField s.mem a .bodyAddr = a + headerSize) :
    (s.malloc l size).1 = frontBody (q (l, sizeClass size)) ∧
      Rep N (s.malloc l size).2 (dequeue q (l, sizeClass size)) ∧
      OnlyLinks N s.mem (s.malloc l size).2.mem := by
  obtain ⟨hptr, hrest⟩ := h.malloc_stored hN l size
  refine ⟨hptr.trans ?_, hrest⟩
  cases hq : q (l, sizeClass size) with
  | nil => rfl
  | cons a t => exact hbody a (h.nodes (l, sizeClass size) a (by simp [hq]))

/-- `Free` of a body pointer enqueues its header in the class of its stored size. -/
theorem free_body (hm : m < 2 ^ 64) :
    s.free l (m + headerSize) = s.push l (sizeClass (readField s.mem m .size)) m := by
  have hne : m + headerSize ≠ 0 := by
    unfold headerSize
    omega
  rw [Store.free, if_neg hne, headerOf_body hm]

/-- **Swap** exchanges two queues of one class. -/
theorem swap (h : Rep N s q) (hne : l ≠ dst) :
    Rep N (s.swap l dst i) (swapped q (l, i) (dst, i)) := by
  have hkeys : (l, i) ≠ (dst, i) := fun heq => hne (congrArg Prod.fst heq)
  have hsame := fun a => Separated.exists_mem_transfer (f := q) (a := a) hkeys
    (@List.perm_append_comm _ (q (dst, i)) (q (l, i)))
  constructor
  case nodes =>
    intro k a ha
    obtain ⟨k', ha'⟩ := (hsame a).mp ⟨k, ha⟩
    exact h.nodes k' a ha'
  case linked => simpa [Store.swap, swapped] using h.linked.swap hkeys
  case loose =>
    intro a ha hout
    have hnext : (s.swap l dst i).next a = s.next a := by simp [Store.swap]
    rw [hnext]
    exact h.loose a ha fun k hak => ((hsame a).mpr ⟨k, hak⟩).elim hout

/-! ### Join -/

/-- One class of `lm` moved behind the same class of `l`. -/
theorem joinClass (hN : HeaderSet N) (h : Rep N s q) (hne : l ≠ lm) :
    Rep N (s.joinClass l lm i)
        (Function.update (Function.update q (l, i) (q (l, i) ++ q (lm, i))) (lm, i) []) ∧
      OnlyLinks N s.mem (s.joinClass l lm i).mem := by
  have hkeys : (l, i) ≠ (lm, i) := fun heq => hne (congrArg Prod.fst heq)
  unfold Store.joinClass
  split
  case isTrue hhead =>
    have hj : q (lm, i) ≠ [] := mt h.linked.head_eq_null_iff.mpr hhead
    have hfirst : s.head (lm, i) ∈ N := by
      cases hq : q (lm, i) with
      | nil => exact absurd hq hj
      | cons a t =>
          rw [(h.caches_of_cons hq).1]
          exact h.nodes (lm, i) a (by simp [hq])
    have hlt : s.head (lm, i) < 2 ^ 64 := by
      have := hN.lt _ hfirst
      omega
    have hperm : ((q (l, i) ++ q (lm, i)) ++ []).Perm (q (l, i) ++ q (lm, i)) := by simp
    have hsame := fun a => Separated.exists_mem_transfer (f := q) (a := a) hkeys hperm
    refine ⟨⟨?_, ?_, ?_⟩, ?_⟩
    · intro k a ha
      obtain ⟨k', ha'⟩ := (hsame a).mp ⟨k, ha⟩
      exact h.nodes k' a ha'
    · simp only [setLast_next, setHead_next, setLast_head, setHead_head, setLast_last,
        setHead_last, append_head, append_last]
      refine Linked.congr (fun k a ha => ?_) (h.linked.concat hkeys hj)
      obtain ⟨k', ha'⟩ := (hsame a).mp ⟨k, ha⟩
      exact append_next hN (fun hhead => h.nodes _ _ (last_mem h.linked hhead))
        (h.nodes k' a ha') hlt
    · intro a ha hout
      have hqueues : ∀ k, a ∉ q k := fun k hak => ((hsame a).mpr ⟨k, hak⟩).elim hout
      rw [setLast_next, setHead_next,
        append_next_of_not_mem hN h.nodes h.linked ha hlt (hqueues _)]
      exact h.loose a ha hqueues
    · rw [setLast_mem, setHead_mem]
      exact append_onlyLinks h.nodes h.linked
  case isFalse hhead =>
    -- an empty queue is not moved, and joining it would change nothing
    have hnil : q (lm, i) = [] := h.linked.head_eq_null_iff.mp (not_not.mp hhead)
    have hq : Function.update (Function.update q (l, i) (q (l, i) ++ q (lm, i))) (lm, i) [] = q := by
      funext k
      by_cases hkm : k = (lm, i)
      · rw [hkm, Function.update_self, hnil]
      · by_cases hkl : k = (l, i)
        · rw [hkl, Function.update_of_ne hkeys, Function.update_self, hnil, List.append_nil]
        · rw [Function.update_of_ne hkm, Function.update_of_ne hkl]
    rw [hq]
    exact ⟨h, OnlyLinks.refl _⟩

/-- The queues after `Join(lm)` on `l`: every class of `lm` behind that of `l`. -/
def joined (q : ι × SizeClass → List Nat) (l lm : ι) (k : ι × SizeClass) : List Nat :=
  if k.1 = l then q k ++ q (lm, k.2) else if k.1 = lm then [] else q k

theorem joined_self : joined q l lm (l, i) = q (l, i) ++ q (lm, i) := if_pos rfl

theorem joined_emptied (hne : lm ≠ l) : joined q l lm (lm, i) = [] := by
  rw [joined, if_neg hne, if_pos rfl]

theorem joined_of_ne {l' : ι} (hl : l' ≠ l) (hlm : l' ≠ lm) :
    joined q l lm (l', i) = q (l', i) := by
  rw [joined, if_neg hl, if_neg hlm]

/-- Joining empty lists changes nothing. -/
theorem joined_of_nil (hlm : ∀ i, q (lm, i) = []) : joined q l lm = q := by
  funext ⟨l', i⟩
  by_cases hl : l' = l
  · rw [joined, if_pos hl, hlm, List.append_nil]
  · by_cases hl' : l' = lm
    · rw [joined, if_neg hl, if_pos hl', hl', hlm]
    · rw [joined, if_neg hl, if_neg hl']

/-- **Join** moves every class of `lm` behind the receiver's and leaves `lm` empty. -/
theorem join (hN : HeaderSet N) (h : Rep N s q) (hne : l ≠ lm) :
    Rep N (s.join l lm) (joined q l lm) ∧ OnlyLinks N s.mem (s.join l lm).mem := by
  -- after the classes in `is` only those are joined
  have hloop : ∀ (is : List SizeClass) (s : Store ι) (q : ι × SizeClass → List Nat), is.Nodup →
      Rep N s q →
      Rep N (is.foldl (fun s i => s.joinClass l lm i) s)
        (fun k => if k.2 ∈ is then joined q l lm k else q k) ∧
      OnlyLinks N s.mem (is.foldl (fun s i => s.joinClass l lm i) s).mem := by
    intro is
    induction is with
    | nil =>
        intro s q _ h
        simpa using ⟨h, OnlyLinks.refl s.mem⟩
    | cons i is ih =>
        intro s q hnd h
        obtain ⟨hi, hnd⟩ := List.nodup_cons.mp hnd
        obtain ⟨hround, hlinks⟩ := h.joinClass (i := i) hN hne
        obtain ⟨hrest, hlinks'⟩ := ih _ _ hnd hround
        refine ⟨?_, hlinks.trans hlinks'⟩
        rw [List.foldl_cons]
        convert hrest using 1
        funext ⟨l', j⟩
        by_cases hji : j = i
        · subst hji
          by_cases hl : l' = l
          · subst hl
            simp [joined, hi, hne]
          · by_cases hlm : l' = lm
            · subst hlm
              simp [joined, hi, hl]
            · simp [joined, hi, hl, hlm]
        · simp [joined, hji]
  obtain ⟨hrep, hlinks⟩ := hloop (List.finRange numClasses) s q (List.nodup_finRange _) h
  have hall : (fun k => if k.2 ∈ List.finRange numClasses then joined q l lm k else q k) =
      joined q l lm := by
    funext k
    simp
  rw [hall] at hrep
  exact ⟨hrep, hlinks⟩

/-- Joining keeps every header on a queue of its tag. -/
theorem reshuffle_joined {τ : Type*} {tag : ι × SizeClass → τ} (htag : ∀ i, tag (l, i) = tag (lm, i)) :
    Reshuffle tag q (joined q l lm) where
  source k a ha := by
    unfold joined at ha
    split at ha
    case isTrue hl =>
      rcases List.mem_append.mp ha with ha | ha
      · exact ⟨k, rfl, ha⟩
      · exact ⟨(lm, k.2), by rw [← htag, ← hl], ha⟩
    · split at ha
      · exact absurd ha List.not_mem_nil
      · exact ⟨k, rfl, ha⟩
  kept k a ha := by
    by_cases hl : k.1 = l
    · exact ⟨k, by simp [joined, hl, ha]⟩
    · by_cases hlm : k.1 = lm
      · refine ⟨(l, k.2), ?_⟩
        rw [joined, if_pos rfl, ← hlm]
        exact List.mem_append_right _ ha
      · exact ⟨k, by simp [joined, hl, hlm, ha]⟩

end Rep

/-! ### Sound stores -/

/-- A represented store whose headers lie apart and point to the body behind them. -/
structure Sound {ι : Type} (N : Set Nat) (s : Store ι) (q : ι × SizeClass → List Nat) : Prop
    extends Rep N s q where
  headers : HeaderSet N
  body : ∀ a ∈ N, readField s.mem a .bodyAddr = a + headerSize

/-- From store `s` an operation reached `s'` with queues `q'`, touching only links. -/
structure Moved {ι : Type} (N : Set Nat) (s s' : Store ι) (q' : ι × SizeClass → List Nat) :
    Prop where
  sound : Sound N s' q'
  links : OnlyLinks N s.mem s'.mem

namespace Sound

variable {ι : Type} {N : Set Nat} {s s' s'' : Store ι} {q q' q'' : ι × SizeClass → List Nat}
  {l lm dst : ι} {i : SizeClass} {m : Nat}

theorem moved (h : Sound N s q) (hrep : Rep N s' q') (hlinks : OnlyLinks N s.mem s'.mem) :
    Moved N s s' q' :=
  ⟨⟨hrep, h.headers, fun a ha =>
    (hlinks.field h.headers ha (by decide)).trans (h.body a ha)⟩, hlinks⟩

theorem refl (h : Sound N s q) : Moved N s s q := ⟨h, OnlyLinks.refl _⟩

theorem trans (h : Moved N s s' q') (h' : Moved N s' s'' q'') : Moved N s s'' q'' :=
  ⟨h'.sound, h.links.trans h'.links⟩

variable [DecidableEq ι]

theorem malloc (h : Sound N s q) (l : ι) (size : Nat) :
    (s.malloc l size).1 = frontBody (q (l, sizeClass size)) ∧
      Moved N s (s.malloc l size).2 (dequeue q (l, sizeClass size)) := by
  obtain ⟨hptr, hrep, hlinks⟩ := h.toRep.malloc h.headers h.body
  exact ⟨hptr, h.moved hrep hlinks⟩

theorem push (h : Sound N s q) (hm : m ∈ N) (hloose : ∀ k, m ∉ q k) :
    Moved N s (s.push l i m) (enqueue q (l, i) [m]) := by
  obtain ⟨hrep, hlinks⟩ := h.toRep.push h.headers hm hloose
  exact h.moved hrep hlinks

theorem swap (h : Sound N s q) (hne : l ≠ dst) :
    Moved N s (s.swap l dst i) (swapped q (l, i) (dst, i)) :=
  h.moved (h.toRep.swap hne) (OnlyLinks.refl _)

theorem join (h : Sound N s q) (hne : l ≠ lm) : Moved N s (s.join l lm) (Rep.joined q l lm) := by
  obtain ⟨hrep, hlinks⟩ := h.toRep.join h.headers hne
  exact h.moved hrep hlinks

end Sound

end FCMalloc
