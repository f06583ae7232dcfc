import Mathlib.Data.List.Nodup
import Mathlib.Data.List.Perm.Basic
import Mathlib.Logic.Function.Basic

/-!
# Queue families

Families of queues that never share an element.

A family `f : κ → List α` is `Separated` when no queue repeats an element and no
element is on two queues. The moves a queueing discipline makes all have one
shape: two queues are rewritten so that together they still hold a permutation
of what they held (`Separated.transfer`). Popping, pushing, concatenating and
swapping are instances.

`Reshuffle tag f g` is the coarser view of such moves: `g` holds the elements of
`f`, each on a queue with the tag of the queue it was on.
-/

variable {κ α : Type*}

/-- No queue repeats an element and no element is on two queues. -/
structure Separated (f : κ → List α) : Prop where
  nodup : ∀ k, (f k).Nodup
  disjoint : ∀ k k', k ≠ k' → ∀ a ∈ f k, a ∉ f k'

namespace Separated

variable {f g : κ → List α} {i j k : κ} {a : α} {xs : List α}

theorem empty : Separated (fun _ : κ => ([] : List α)) :=
  ⟨fun _ => List.nodup_nil, fun _ _ _ _ h => absurd h List.not_mem_nil⟩

/-- Two queues of the family holding the same element are the same queue. -/
theorem eq_of_mem (h : Separated f) (hi : a ∈ f i) (hj : a ∈ f j) : i = j := by
  by_contra hne
  exact h.disjoint i j hne a hi hj

theorem nodup_append (h : Separated f) (hij : i ≠ j) : (f i ++ f j).Nodup :=
  List.nodup_append.mpr ⟨h.nodup i, h.nodup j, fun a ha _ hb hab =>
    h.disjoint i j hij a ha (hab ▸ hb)⟩

variable [DecidableEq κ]

/-- Replacing one queue by another list that shares nothing with the rest. -/
theorem replace (h : Separated f) (hnd : xs.Nodup)
    (hfresh : ∀ a ∈ xs, ∀ k, k ≠ i → a ∉ f k) : Separated (Function.update f i xs) where
  nodup k := by
    by_cases hk : k = i
    · subst hk
      rwa [Function.update_self]
    · rw [Function.update_of_ne hk]
      exact h.nodup k
  disjoint k k' hne a ha := by
    by_cases hk : k = i
    · subst hk
      rw [Function.update_self] at ha
      rw [Function.update_of_ne (Ne.symm hne)]
      exact hfresh a ha k' (Ne.symm hne)
    · rw [Function.update_of_ne hk] at ha
      by_cases hk' : k' = i
      · subst hk'
        rw [Function.update_self]
        exact fun ha' => hfresh a ha' k hk ha
      · rw [Function.update_of_ne hk']
        exact h.disjoint k k' hne a ha

/-- A queue may be cut down to any sublist. -/
theorem shrink (h : Separated f) (hsub : xs.Sublist (f i)) : Separated (Function.update f i xs) :=
  h.replace (hsub.nodup (h.nodup i)) fun a ha k hk hak =>
    h.disjoint i k (Ne.symm hk) a (hsub.subset ha) hak

/-- Rewriting two queues without changing what they hold together. -/
theorem transfer {ys : List α} (h : Separated f) (hij : i ≠ j)
    (hperm : (xs ++ ys).Perm (f i ++ f j)) :
    Separated (Function.update (Function.update f i xs) j ys) := by
  have hnd : (xs ++ ys).Nodup := hperm.symm.nodup (h.nodup_append hij)
  have hmem : ∀ a, a ∈ xs ∨ a ∈ ys → a ∈ f i ∨ a ∈ f j := fun a ha => by
    simpa using hperm.subset (by simpa using ha)
  have hother : ∀ a, a ∈ xs ∨ a ∈ ys → ∀ k, k ≠ i → k ≠ j → a ∉ f k := by
    intro a ha k hki hkj hak
    rcases hmem a ha with ha | ha
    · exact h.disjoint i k (Ne.symm hki) a ha hak
    · exact h.disjoint j k (Ne.symm hkj) a ha hak
  -- cut both queues to nothing first, so that each refill meets an empty one
  have hcut : Separated (Function.update (Function.update f i []) j []) :=
    (h.shrink (List.nil_sublist _)).shrink (List.nil_sublist _)
  have hxs : Separated (Function.update (Function.update (Function.update f i []) j []) i xs) := by
    refine hcut.replace (List.nodup_append.mp hnd).1 fun a ha k hk => ?_
    by_cases hkj : k = j
    · subst hkj
      simp
    · rw [Function.update_of_ne hkj, Function.update_of_ne hk]
      exact hother a (Or.inl ha) k hk hkj
  have hys := hxs.replace (i := j) (List.nodup_append.mp hnd).2.1 fun a ha k hk => by
    by_cases hki : k = i
    · subst hki
      rw [Function.update_self]
      exact fun hax => (List.nodup_append.mp hnd).2.2 a hax a ha rfl
    · rw [Function.update_of_ne hki, Function.update_of_ne hk, Function.update_of_ne hki]
      exact hother a (Or.inr ha) k hki hk
  convert hys using 1
  funext k
  by_cases hkj : k = j
  · subst hkj
    simp
  · by_cases hki : k = i
    · subst hki
      simp [hkj]
    · simp [hkj, hki]

/-- Rewriting two queues keeps the elements of the family. -/
theorem exists_mem_transfer {ys : List α} (hij : i ≠ j) (hperm : (xs ++ ys).Perm (f i ++ f j)) :
    (∃ k, a ∈ Function.update (Function.update f i xs) j ys k) ↔ ∃ k, a ∈ f k := by
  have hmem : a ∈ xs ∨ a ∈ ys ↔ a ∈ f i ∨ a ∈ f j := by
    simpa only [List.mem_append] using hperm.mem_iff
  have hi : Function.update (Function.update f i xs) j ys i = xs := by
    rw [Function.update_of_ne hij, Function.update_self]
  have hj : Function.update (Function.update f i xs) j ys j = ys := Function.update_self _ _ _
  constructor
  · rintro ⟨k, hk⟩
    by_cases hki : k = i
    · rw [hki, hi] at hk
      exact (hmem.mp (Or.inl hk)).elim (fun h => ⟨i, h⟩) fun h => ⟨j, h⟩
    · by_cases hkj : k = j
      · rw [hkj, hj] at hk
        exact (hmem.mp (Or.inr hk)).elim (fun h => ⟨i, h⟩) fun h => ⟨j, h⟩
      · rw [Function.update_of_ne hkj, Function.update_of_ne hki] at hk
        exact ⟨k, hk⟩
  · rintro ⟨k, hk⟩
    by_cases hkij : k = i ∨ k = j
    · have hk' : a ∈ f i ∨ a ∈ f j := by
        rcases hkij with rfl | rfl
        · exact Or.inl hk
        · exact Or.inr hk
      rcases hmem.mpr hk' with h | h
      · exact ⟨i, by rwa [hi]⟩
      · exact ⟨j, by rwa [hj]⟩
    · obtain ⟨hki, hkj⟩ := not_or.mp hkij
      exact ⟨k, by rwa [Function.update_of_ne hkj, Function.update_of_ne hki]⟩

end Separated

/-! ### Moves -/

section Moves

variable [DecidableEq κ]

/-- `xs` at the back of queue `i`. -/
def enqueue (f : κ → List α) (i : κ) (xs : List α) : κ → List α := Function.update f i (f i ++ xs)

/-- Queue `i` without its front. -/
def dequeue (f : κ → List α) (i : κ) : κ → List α := Function.update f i (f i).tail

/-- Queues `i` and `j` exchanged. -/
def swapped (f : κ → List α) (i j : κ) : κ → List α :=
  Function.update (Function.update f i (f j)) j (f i)

/-- The first `n` elements of queue `i` moved, in order, behind queue `j`. -/
def moveFront (f : κ → List α) (i j : κ) (n : Nat) : κ → List α :=
  Function.update (Function.update f j (f j ++ (f i).take n)) i ((f i).drop n)

variable {f : κ → List α} {i j k : κ} {a : α} {xs : List α} {n : Nat}

theorem mem_enqueue : a ∈ enqueue f i xs k ↔ a ∈ f k ∨ k = i ∧ a ∈ xs := by
  rw [enqueue, Function.update_apply]
  by_cases hk : k = i
  · simp [hk]
  · simp [hk]

theorem enqueue_nil : enqueue f i [] = f := by
  rw [enqueue, List.append_nil, Function.update_eq_self]

theorem mem_of_mem_dequeue (h : a ∈ dequeue f i k) : a ∈ f k := by
  rw [dequeue, Function.update_apply] at h
  split at h
  case isTrue hk =>
    rw [hk]
    exact List.mem_of_mem_tail h
  · exact h

theorem swapped_of_nil (hi : f i = []) (hj : f j = []) : swapped f i j = f := by
  funext k
  by_cases hkj : k = j
  · rw [hkj, swapped, Function.update_self, hi, hj]
  · by_cases hki : k = i
    · rw [hki, swapped, Function.update_of_ne (hki ▸ hkj), Function.update_self, hi, hj]
    · rw [swapped, Function.update_of_ne hkj, Function.update_of_ne hki]

theorem dequeue_of_nil (hi : f i = []) : dequeue f i = f := by
  rw [dequeue, hi, List.tail_nil, ← hi, Function.update_eq_self]

/-- Moving nothing. -/
theorem moveFront_of_nil (hn : (f i).take n = []) : moveFront f i j n = f := by
  have hdrop : (f i).drop n = f i := by
    have hall := List.take_append_drop n (f i)
    rwa [hn, List.nil_append] at hall
  rw [moveFront, hn, hdrop, List.append_nil, Function.update_eq_self, Function.update_eq_self]

/-- `a` is on some queue of the family. -/
def Queued (f : κ → List α) (a : α) : Prop := ∃ k, a ∈ f k

theorem queued_enqueue : Queued (enqueue f i xs) a ↔ Queued f a ∨ a ∈ xs := by
  constructor
  · rintro ⟨k, hk⟩
    rcases mem_enqueue.mp hk with hk | ⟨-, ha⟩
    · exact Or.inl ⟨k, hk⟩
    · exact Or.inr ha
  · rintro (⟨k, hk⟩ | ha)
    · exact ⟨k, mem_enqueue.mpr (Or.inl hk)⟩
    · exact ⟨i, mem_enqueue.mpr (Or.inr ⟨rfl, ha⟩)⟩

/-- Taking the front off leaves everything else queued. -/
theorem queued_dequeue {b : α} {t : List α} (h : Separated f) (hi : f i = a :: t) :
    Queued (dequeue f i) b ↔ Queued f b ∧ b ≠ a := by
  have hnd : (a :: t).Nodup := by
    rw [← hi]
    exact h.nodup i
  have hai : a ∈ f i := by simp [hi]
  constructor
  · rintro ⟨k, hk⟩
    refine ⟨⟨k, mem_of_mem_dequeue hk⟩, ?_⟩
    rintro rfl
    obtain rfl := h.eq_of_mem (mem_of_mem_dequeue hk) hai
    rw [dequeue, Function.update_self, hi, List.tail_cons] at hk
    exact (List.nodup_cons.mp hnd).1 hk
  · rintro ⟨⟨k, hk⟩, hba⟩
    refine ⟨k, ?_⟩
    rw [dequeue, Function.update_apply]
    split
    case isTrue hki =>
      rw [hki, hi] at hk
      rw [hi, List.tail_cons]
      exact (List.mem_cons.mp hk).resolve_left hba
    · exact hk

theorem Separated.swapped (h : Separated f) (hij : i ≠ j) : Separated (swapped f i j) :=
  h.transfer hij List.perm_append_comm

theorem Separated.moveFront (h : Separated f) (hij : i ≠ j) : Separated (moveFront f i j n) := by
  refine h.transfer hij.symm ?_
  rw [List.append_assoc, List.take_append_drop]

end Moves

/-- `g` holds the elements of `f`, each on a queue tagged like the one it was on. -/
structure Reshuffle {τ : Type*} (tag : κ → τ) (f g : κ → List α) : Prop where
  source : ∀ k, ∀ a ∈ g k, ∃ k', tag k' = tag k ∧ a ∈ f k'
  kept : ∀ k, ∀ a ∈ f k, ∃ k', a ∈ g k'

namespace Reshuffle

variable {τ : Type*} {tag : κ → τ} {f g h : κ → List α} {i j : κ} {xs ys : List α}

theorem refl (f : κ → List α) : Reshuffle tag f f :=
  ⟨fun k _ ha => ⟨k, rfl, ha⟩, fun k _ ha => ⟨k, ha⟩⟩

theorem trans (hfg : Reshuffle tag f g) (hgh : Reshuffle tag g h) : Reshuffle tag f h where
  source k a ha := by
    obtain ⟨k₁, htag₁, ha₁⟩ := hgh.source k a ha
    obtain ⟨k₂, htag₂, ha₂⟩ := hfg.source k₁ a ha₁
    exact ⟨k₂, htag₂.trans htag₁, ha₂⟩
  kept k a ha := by
    obtain ⟨k₁, ha₁⟩ := hfg.kept k a ha
    exact hgh.kept k₁ a ha₁

/-- Being on some queue is not affected. -/
theorem queued_iff (hfg : Reshuffle tag f g) {a : α} : Queued g a ↔ Queued f a :=
  ⟨fun ⟨k, ha⟩ => (hfg.source k a ha).imp fun _ h => h.2, fun ⟨k, ha⟩ => hfg.kept k a ha⟩

/-- Rewriting two queues of one tag without changing what they hold together. -/
theorem transfer [DecidableEq κ] (hij : i ≠ j) (htag : tag i = tag j)
    (hperm : (xs ++ ys).Perm (f i ++ f j)) :
    Reshuffle tag f (Function.update (Function.update f i xs) j ys) where
  source k a ha := by
    by_cases hk : k = i ∨ k = j
    · have htagk : tag k = tag i := by
        rcases hk with rfl | rfl
        · rfl
        · exact htag.symm
      have hxy : a ∈ xs ++ ys := by
        rcases hk with rfl | rfl
        · rw [Function.update_of_ne hij, Function.update_self] at ha
          exact List.mem_append_left _ ha
        · rw [Function.update_self] at ha
          exact List.mem_append_right _ ha
      rcases List.mem_append.mp (hperm.mem_iff.mp hxy) with ha | ha
      · exact ⟨i, htagk.symm, ha⟩
      · exact ⟨j, htag.symm.trans htagk.symm, ha⟩
    · obtain ⟨hki, hkj⟩ := not_or.mp hk
      rw [Function.update_of_ne hkj, Function.update_of_ne hki] at ha
      exact ⟨k, rfl, ha⟩
  kept k a ha := (Separated.exists_mem_transfer hij hperm).mpr ⟨k, ha⟩

theorem swapped [DecidableEq κ] (hij : i ≠ j) (htag : tag i = tag j) :
    Reshuffle tag f (swapped f i j) :=
  transfer hij htag List.perm_append_comm

theorem moveFront [DecidableEq κ] {n : Nat} (hij : i ≠ j) (htag : tag i = tag j) :
    Reshuffle tag f (moveFront f i j n) := by
  refine transfer hij.symm htag.symm ?_
  rw [List.append_assoc, List.take_append_drop]

end Reshuffle
