import Mathlib.Algebra.Ring.Nat
import Mathlib.Order.Interval.Finset.Nat

/-!
# Address extents

Half-open ranges `[base, base + len)` of addresses, with containment and
disjointness. Disjointness is stated pointwise, so an empty extent is apart from
everything; `Extent.apart_iff` is the linear-arithmetic form that makes it
decidable and hands it to `omega`.
-/

/-- The addresses `[base, base + len)`. -/
structure Extent where
  base : Nat
  len : Nat
  deriving DecidableEq, Repr

namespace Extent

instance : Membership Nat Extent := ⟨fun e x => e.base ≤ x ∧ x < e.base + e.len⟩

theorem mem_iff {e : Extent} {x : Nat} : x ∈ e ↔ e.base ≤ x ∧ x < e.base + e.len := Iff.rfl

instance (x : Nat) (e : Extent) : Decidable (x ∈ e) :=
  inferInstanceAs (Decidable (e.base ≤ x ∧ x < e.base + e.len))

/-- No address is in both extents. -/
def Apart (e f : Extent) : Prop := ∀ x, x ∈ e → x ∉ f

/-- `e` lies inside `f`. -/
def Within (e f : Extent) : Prop := f.base ≤ e.base ∧ e.base + e.len ≤ f.base + f.len

instance (e f : Extent) : Decidable (e.Within f) :=
  inferInstanceAs (Decidable (f.base ≤ e.base ∧ e.base + e.len ≤ f.base + f.len))

variable {e f g : Extent}

theorem apart_iff : e.Apart f ↔
    e.len = 0 ∨ f.len = 0 ∨ e.base + e.len ≤ f.base ∨ f.base + f.len ≤ e.base := by
  constructor
  · intro h
    have hlow := h (max e.base f.base)
    simp only [mem_iff] at hlow
    omega
  · intro h x hx hx'
    simp only [mem_iff] at hx hx'
    omega

instance (e f : Extent) : Decidable (e.Apart f) := decidable_of_iff _ apart_iff.symm

theorem Apart.symm (h : e.Apart f) : f.Apart e := fun x hx hx' => h x hx' hx

theorem Within.mem {x : Nat} (h : e.Within f) (hx : x ∈ e) : x ∈ f := by
  simp only [Within, mem_iff] at *
  omega

theorem Within.refl (e : Extent) : e.Within e := ⟨Nat.le_refl _, Nat.le_refl _⟩

theorem Within.trans (h : e.Within f) (h' : f.Within g) : e.Within g :=
  ⟨Nat.le_trans h'.1 h.1, Nat.le_trans h.2 h'.2⟩

/-- Shrinking either side keeps two extents apart. -/
theorem Apart.mono {e' f' : Extent} (h : e.Apart f) (he : e'.Within e) (hf : f'.Within f) :
    e'.Apart f' :=
  fun x hx hx' => h x (he.mem hx) (hf.mem hx')

/-- The addresses of a list of pairwise apart extents, counted. -/
theorem exists_cover {l : List Extent} (h : l.Pairwise Apart) :
    ∃ s : Finset Nat, s.card = (l.map len).sum ∧ ∀ x, x ∈ s ↔ ∃ e ∈ l, x ∈ e := by
  induction h with
  | nil => exact ⟨∅, rfl, by simp⟩
  | @cons e l hfst _ ih =>
      obtain ⟨s, hcard, hmem⟩ := ih
      have hdisjoint : Disjoint (Finset.Ico e.base (e.base + e.len)) s := by
        rw [Finset.disjoint_left]
        intro x hx hxs
        obtain ⟨f, hf, hxf⟩ := (hmem x).mp hxs
        exact hfst f hf x (Finset.mem_Ico.mp hx) hxf
      refine ⟨Finset.Ico e.base (e.base + e.len) ∪ s, ?_, fun x => ?_⟩
      · rw [Finset.card_union_of_disjoint hdisjoint, hcard, Nat.card_Ico, List.map_cons,
          List.sum_cons, Nat.add_sub_cancel_left]
      · rw [Finset.mem_union, hmem, Finset.mem_Ico, List.exists_mem_cons_iff]
        exact Iff.rfl

/-- Pairwise apart extents below `n` have at most `n` addresses in all. -/
theorem sum_len_le {l : List Extent} {n : Nat} (h : l.Pairwise Apart)
    (hbelow : ∀ e ∈ l, e.base + e.len ≤ n) : (l.map len).sum ≤ n := by
  obtain ⟨s, hcard, hmem⟩ := exists_cover h
  have hsub : s ⊆ Finset.range n := by
    intro x hx
    obtain ⟨e, he, hxe⟩ := (hmem x).mp hx
    have := hbelow e he
    rw [Finset.mem_range]
    exact Nat.lt_of_lt_of_le hxe.2 this
  have := Finset.card_le_card hsub
  rwa [hcard, Finset.card_range] at this

end Extent
