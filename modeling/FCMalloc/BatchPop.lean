import FCMalloc.MemoryLinkedListManager
import Mathlib.Data.Set.Insert

/-!
# FCMalloc.BatchPop

`popN` against the loop of `pop` it stands for.

`popN` looks for its last header from the second one on, so it takes one header more than it
is asked for, and reads through `nullptr` when there is no second. Both go unnoticed on two
lists only: the empty one, and one of at least two headers that is taken whole
(`popN_popsFront_iff`).
-/

namespace FCMalloc

namespace Store

variable {ι : Type} [DecidableEq ι]

/-- `k` calls of `pop`, and the headers they return. -/
def popTimes (s : Store ι) (l : ι) (index : SizeClass) : (k : Nat) → List Nat × Store ι
  | 0 => ([], s)
  | k + 1 =>
      let r := s.pop l index
      let rest := popTimes r.2 l index k
      (r.1 :: rest.1, rest.2)

/-- What `popN(index, n)` owes when it returns `r`: the chain of the first `n` headers, the
others left on the list, and both as after as many calls of `pop`. -/
structure PopsFront (s : Store ι) (q : ι × SizeClass → List Nat) (l : ι) (i : SizeClass) (n : Nat)
    (r : Nat) (s' : Store ι) : Prop where
  taken : Chain 0 s'.next r ((q (l, i)).take n)
  left : Linked 0 s'.next s'.head s'.last (Function.update q (l, i) ((q (l, i)).drop n))
  same_nodes : (s.popTimes l i (min n (q (l, i)).length)).1 = (q (l, i)).take n
  same_lists : (s.popTimes l i (min n (q (l, i)).length)).2.head = s'.head ∧
    (s.popTimes l i (min n (q (l, i)).length)).2.last = s'.last

end Store

namespace Rep

open Store

variable {ι : Type} [DecidableEq ι] {N : Set Nat} {s : Store ι} {q : ι × SizeClass → List Nat}
  {l : ι} {i : SizeClass} {a b h k rounds : Nat} {n : Int} {t xs : List Nat}

omit [DecidableEq ι] in
/-- The loop of `popN` stops after its rounds or at the end of the chain. -/
theorem popNLoop_chain (rounds : Nat) (hc : Chain 0 s.next h xs) (hne : xs ≠ []) :
    ∃ ys z t, xs = ys ++ z :: t ∧ ys.length = min rounds (xs.length - 1) ∧
      s.popNLoop rounds h = some z := by
  induction rounds generalizing h xs with
  | zero =>
      cases xs with
      | nil => exact absurd rfl hne
      | cons a t =>
          obtain ⟨rfl, -, -⟩ := hc
          exact ⟨[], h, t, rfl, by simp, rfl⟩
  | succ rounds ih =>
      cases xs with
      | nil => exact absurd rfl hne
      | cons a t =>
          obtain ⟨rfl, hnull, htail⟩ := hc
          rw [popNLoop, if_neg hnull]
          by_cases hend : s.next h = 0
          · have ht : t = [] := htail.head_eq_null_iff.mp hend
            subst ht
            exact ⟨[], h, [], rfl, by simp, if_neg (not_not.mpr hend)⟩
          · have ht : t ≠ [] := mt htail.head_eq_null_iff.mpr hend
            have hpos := List.length_pos_iff.mpr ht
            obtain ⟨ys, z, t', rfl, hlen, hloop⟩ := ih htail ht
            refine ⟨h :: ys, z, t', rfl, ?_, ?_⟩
            · rw [List.length_cons, hlen, List.length_cons]
              omega
            · rw [if_pos hend, hloop]

/-- On a list of one header `popN` goes through `nullptr`, whatever the count. -/
theorem popN_singleton (hs : Rep N s q) (hq : q (l, i) = [a]) : s.popN l i n = none := by
  obtain ⟨hhead, hfull⟩ := hs.caches_of_cons hq
  have hnext : s.next a = 0 := by
    have hchain := hs.linked.chain (l, i)
    rw [hq] at hchain
    exact hchain.2.2
  rw [popN, if_neg hfull, hhead]
  dsimp only
  rw [hnext]
  cases (n - 1).toNat with
  | zero => rfl
  | succ rounds => rfl

/-- **From two headers on** `popN` cuts the list behind header `n + 1`, or takes it whole. -/
theorem popN_cut (hN : HeaderSet N) (hs : Rep N s q) (hn : 1 ≤ n) (hq : q (l, i) = a :: b :: t) :
    ∃ xs z t' s', q (l, i) = xs ++ z :: t' ∧
      xs.length + 1 = min (n.toNat + 1) (q (l, i)).length ∧ s.popN l i n = some (a, s') ∧
      Chain 0 s'.next a (xs ++ [z]) ∧
      Linked 0 s'.next s'.head s'.last (Function.update q (l, i) t') := by
  obtain ⟨hhead, hfull⟩ := hs.caches_of_cons hq
  have hchain : Chain 0 s.next (s.next a) (b :: t) := by
    have hchain := hs.linked.chain (l, i)
    rw [hq] at hchain
    exact hchain.2.2
  obtain ⟨ys, z, t', hys, hlen, hloop⟩ :=
    popNLoop_chain (n - 1).toNat hchain (List.cons_ne_nil b t)
  have hq' : q (l, i) = (a :: ys) ++ z :: t' := by rw [hq, hys, List.cons_append]
  have hz : z ∈ q (l, i) := by
    rw [hq']
    exact List.mem_append_right _ List.mem_cons_self
  have hznull : z ≠ 0 := (hs.linked.chain (l, i)).ne_null z hz
  have hzN : z ∈ N := hs.nodes _ z hz
  obtain ⟨hcut, htaken⟩ := hs.linked.cut hq'
  rw [hhead] at htaken
  -- the store after `popN`: the link of `z` and two caches differ
  let s' := if s.next z ≠ 0 then (s.setHead l i (s.next z)).setNext z 0
    else ((s.setHead l i (s.next z)).setNext z 0).setLast l i 0
  have hpop : s.popN l i n = some (a, s') := by
    rw [popN, if_neg hfull, hhead]
    dsimp only
    rw [hloop, Option.bind_some, if_neg hznull]
  have hnext : ∀ x ∈ N, s'.next x = Function.update s.next z 0 x := by
    intro x hx
    rw [← setNext_next hN hzN hx (by decide)]
    simp only [s']
    split
    · rfl
    · rw [setLast_next]
      rfl
  have hheads : s'.head = Function.update s.head (l, i) (s.next z) := by
    simp only [s']
    split <;> simp
  have hlasts : s'.last =
      Function.update s.last (l, i) (if s.next z = 0 then 0 else s.last (l, i)) := by
    simp only [s']
    by_cases hnull : s.next z = 0
    · simp [hnull]
    · simp [hnull]
  refine ⟨a :: ys, z, t', s', hq', ?_, hpop, ?_, ?_⟩
  · rw [List.length_cons, hlen, hq]
    simp only [List.length_cons]
    omega
  · refine htaken.congr fun x hx => hnext x (hs.nodes (l, i) x ?_)
    rw [hq']
    rcases List.mem_append.mp hx with hx | hx
    · exact List.mem_append_left _ hx
    · exact List.mem_append_right _ (List.mem_singleton.mp hx ▸ List.mem_cons_self)
  · rw [hheads, hlasts]
    refine hcut.congr fun k x hx => hnext x ?_
    rw [Function.update_apply] at hx
    split at hx
    · refine hs.nodes (l, i) x ?_
      rw [hq']
      exact List.mem_append_right _ (List.mem_cons_of_mem z hx)
    · exact hs.nodes k x hx

/-- **Repeated `pop`** takes the headers one by one from the front. -/
theorem popTimes (hN : HeaderSet N) (hs : Rep N s q) (hk : k ≤ (q (l, i)).length) :
    (s.popTimes l i k).1 = (q (l, i)).take k ∧
      Rep N (s.popTimes l i k).2 (Function.update q (l, i) ((q (l, i)).drop k)) := by
  induction k generalizing s q with
  | zero => exact ⟨rfl, by rwa [List.drop_zero, Function.update_eq_self]⟩
  | succ k ih =>
      cases hq : q (l, i) with
      | nil =>
          rw [hq] at hk
          exact absurd hk (Nat.not_succ_le_zero k)
      | cons a t =>
          obtain ⟨hret, hrep, -⟩ := hs.pop hN hq
          have htail : dequeue q (l, i) (l, i) = t := by
            rw [dequeue, Function.update_self, hq, List.tail_cons]
          rw [hq, List.length_cons] at hk
          obtain ⟨hnodes, hrest⟩ := ih hrep (by rw [htail]; omega)
          rw [htail] at hnodes hrest
          refine ⟨?_, ?_⟩
          · rw [Store.popTimes, List.take_succ_cons, hnodes, hret]
          · rwa [dequeue, Function.update_idem] at hrest

/-- **`popN` takes the first `n` headers** exactly on the empty list and on a list of at
least two headers that is taken whole. -/
theorem popN_popsFront_iff (s : Store ι) (q : ι × SizeClass → List Nat) (l : ι) (i : SizeClass)
    (n : Int) (hN : HeaderSet N) (hs : Rep N s q) (hn : 1 ≤ n) :
    (∃ r s', s.popN l i n = some (r, s') ∧ PopsFront s q l i n.toNat r s') ↔
      q (l, i) = [] ∨ 2 ≤ (q (l, i)).length ∧ ((q (l, i)).length : Int) ≤ n := by
  obtain ⟨hnodes, hrest⟩ := hs.popTimes (i := i) (l := l) hN (Nat.min_le_right n.toNat _)
  have hdrop : (q (l, i)).drop (min n.toNat (q (l, i)).length) = (q (l, i)).drop n.toNat := by
    by_cases hle : n.toNat ≤ (q (l, i)).length
    · rw [Nat.min_eq_left hle]
    · have hge : (q (l, i)).length ≤ n.toNat := Nat.le_of_not_le hle
      rw [Nat.min_eq_right hge, List.drop_length, List.drop_eq_nil_of_le hge]
  rw [hdrop] at hrest
  rw [← List.take_eq_take_min] at hnodes
  constructor
  · rintro ⟨r, s', hrun, hfront⟩
    cases hq : q (l, i) with
    | nil => exact Or.inl rfl
    | cons a t =>
        cases t with
        | nil =>
            rw [hs.popN_singleton hq] at hrun
            exact absurd hrun (by simp)
        | cons b t =>
            obtain ⟨xs, z, t', s₁, hcut, hlen, hpop, hchain, -⟩ := hs.popN_cut hN hn hq
            obtain ⟨rfl, rfl⟩ := Prod.mk.inj (Option.some.inj (hpop.symm.trans hrun))
            -- the chain returned is one header too long unless the list ends first
            have htake := congrArg List.length (hfront.taken.unique hchain)
            rw [List.length_take, List.length_append, List.length_singleton, hlen] at htake
            rw [hq] at htake
            refine Or.inr ⟨by simp, ?_⟩
            simp only [List.length_cons] at htake ⊢
            omega
  · rintro (hq | ⟨htwo, hle⟩)
    · have hpop : s.popN l i n = some (0, { s with errno := enomem }) :=
        if_pos (Or.inl (hs.caches_of_nil hq).1)
      have hq' : Function.update q (l, i) ((q (l, i)).drop n.toNat) = q := by
        rw [hq, List.drop_nil, ← hq, Function.update_eq_self]
      refine ⟨_, _, hpop, ?_, ?_, hnodes, ?_⟩
      · rw [hq, List.take_nil]
        rfl
      · rw [hq']
        exact hs.setErrno.linked
      · rw [hq'] at hrest
        exact hrest.linked.caches_unique hs.setErrno.linked
    · obtain ⟨a, b, t, hq⟩ : ∃ a b t, q (l, i) = a :: b :: t := by
        cases hq : q (l, i) with
        | nil => simp [hq] at htwo
        | cons a t =>
            cases t with
            | nil => simp [hq] at htwo
            | cons b t => exact ⟨a, b, t, rfl⟩
      obtain ⟨xs, z, t', s', hcut, hlen, hpop, hchain, hlinked⟩ := hs.popN_cut hN hn hq
      have hall : (q (l, i)).length ≤ n.toNat := by omega
      have hend : t' = [] := by
        have hsum := congrArg List.length hcut
        simp only [List.length_append, List.length_cons] at hsum
        exact List.length_eq_zero_iff.mp (by omega)
      subst hend
      have hnil : (q (l, i)).drop n.toNat = [] := List.drop_eq_nil_of_le hall
      rw [← hnil] at hlinked
      refine ⟨_, _, hpop, ?_, hlinked, hnodes, hrest.linked.caches_unique hlinked⟩
      rw [List.take_of_length_le hall, hcut]
      exact hchain

/-! One manager in zero-filled memory, and two headers to push on it. -/

def blankStore : Store Unit := ⟨fun _ => 0, fun _ => .init, 0⟩

theorem headerSet_two : HeaderSet {4096, 8192} where
  pos a ha := by
    rcases ha with rfl | rfl <;> decide
  lt a ha := by
    rcases ha with rfl | rfl <;> decide
  apart a ha b hb := by
    rcases ha with rfl | rfl <;> rcases hb with rfl | rfl <;> decide

theorem blankStore_rep : Rep {4096, 8192} blankStore (fun _ => []) where
  nodes _ _ ha := absurd ha List.not_mem_nil
  linked := Linked.empty
  loose a ha _ := by
    rcases ha with rfl | rfl <;> rfl

theorem pushed_rep :
    Rep {4096, 8192} (blankStore.push () 3 4096) (enqueue (fun _ => []) ((), 3) [4096]) :=
  (blankStore_rep.push headerSet_two (Set.mem_insert 4096 _) fun _ => List.not_mem_nil).1

theorem pushed_twice_rep : Rep {4096, 8192} ((blankStore.push () 3 4096).push () 3 8192)
    (enqueue (enqueue (fun _ => []) ((), 3) [4096]) ((), 3) [8192]) := by
  refine (pushed_rep.push headerSet_two (Set.mem_insert_of_mem _ rfl) fun k hk => ?_).1
  obtain hk | ⟨-, hk⟩ := mem_enqueue.mp hk
  · exact List.not_mem_nil hk
  · exact absurd (List.mem_singleton.mp hk) (by decide)

/-- Two headers taken whole come off right. -/
theorem popN_popsFront_two : ∃ r s',
    ((blankStore.push () 3 4096).push () 3 8192).popN () 3 2 = some (r, s') ∧
    PopsFront ((blankStore.push () 3 4096).push () 3 8192)
      (enqueue (enqueue (fun _ => []) ((), 3) [4096]) ((), 3) [8192]) () 3 2 r s' :=
  (popN_popsFront_iff _ _ () 3 2 headerSet_two pushed_twice_rep (by decide)).mpr
    (Or.inr (by simp [enqueue]))

/-- Popping one header off a list of one reads through `nullptr`. -/
theorem popN_not_popsFront : ¬ ∀ (N : Set Nat) (s : Store Unit)
    (q : Unit × SizeClass → List Nat) (i : SizeClass) (n : Int), HeaderSet N → Rep N s q → 1 ≤ n →
      ∃ r s', s.popN () i n = some (r, s') ∧ PopsFront s q () i n.toNat r s' := by
  intro h
  obtain ⟨r, s', hrun, -⟩ := h _ _ _ 3 1 headerSet_two pushed_rep (by decide)
  rw [pushed_rep.popN_singleton (a := 4096) rfl] at hrun
  exact absurd hrun (by simp)

end Rep

end FCMalloc
