import Mathlib.Data.List.Basic
import Mathlib.Logic.Function.Basic

/-!
# Linked chains

Null-terminated singly linked chains over an arbitrary successor function.

`Chain null next h l` says that following `next` from `h` visits exactly the
nodes of `l`, in order, and then reaches `null`. A chain is determined by its
head (`Chain.unique`) and depends on `next` only at its own nodes (`Chain.congr`).
Two chains are joined by redirecting the last node of the first (`Chain.link`),
and a chain is cut behind a node by pointing that node at `null` (`Chain.cut`).
-/

variable {α : Type*}

/-- Following `next` from `h` visits exactly `l` and then reaches `null`. -/
def Chain (null : α) (next : α → α) : α → List α → Prop
  | h, [] => h = null
  | h, a :: l => h = a ∧ a ≠ null ∧ Chain null next (next a) l

namespace Chain

variable {null : α} {next next' : α → α} {h h' a z : α} {l l' : List α}

@[simp] theorem nil_iff : Chain null next h [] ↔ h = null := Iff.rfl

@[simp] theorem cons_iff :
    Chain null next h (a :: l) ↔ h = a ∧ a ≠ null ∧ Chain null next (next a) l := Iff.rfl

theorem head_eq_null_iff (hc : Chain null next h l) : h = null ↔ l = [] := by
  cases l with
  | nil => simpa using hc
  | cons a l =>
      obtain ⟨rfl, hne, -⟩ := hc
      simp [hne]

theorem ne_null (hc : Chain null next h l) : ∀ a ∈ l, a ≠ null := by
  induction l generalizing h with
  | nil => simp
  | cons b l ih =>
      obtain ⟨-, hne, htail⟩ := hc
      intro a ha
      rcases List.mem_cons.mp ha with rfl | ha
      · exact hne
      · exact ih htail a ha

/-- The head determines the chain. -/
theorem unique (hc : Chain null next h l) (hc' : Chain null next h l') : l = l' := by
  induction l generalizing h l' with
  | nil =>
      cases l' with
      | nil => rfl
      | cons a l' => exact absurd (hc'.1.symm.trans hc) hc'.2.1
  | cons a l ih =>
      obtain ⟨rfl, hne, htail⟩ := hc
      cases l' with
      | nil => exact absurd hc' hne
      | cons b l' =>
          obtain ⟨rfl, -, htail'⟩ := hc'
          rw [ih htail htail']

/-- A chain depends on the successor function only at its own nodes. -/
theorem congr (hag : ∀ a ∈ l, next' a = next a) (hc : Chain null next h l) :
    Chain null next' h l := by
  induction l generalizing h with
  | nil => exact hc
  | cons a l ih =>
      obtain ⟨rfl, hne, htail⟩ := hc
      refine ⟨rfl, hne, ?_⟩
      rw [hag h List.mem_cons_self]
      exact ih (fun b hb => hag b (List.mem_cons_of_mem _ hb)) htail

/-- The last node of a chain points to `null`. -/
theorem next_getLast (hc : Chain null next h l) (hl : l ≠ []) : next (l.getLast hl) = null := by
  induction l generalizing h with
  | nil => exact absurd rfl hl
  | cons a l ih =>
      obtain ⟨-, -, htail⟩ := hc
      cases l with
      | nil => simpa using htail
      | cons b l =>
          rw [List.getLast_cons (List.cons_ne_nil b l)]
          exact ih htail (List.cons_ne_nil b l)

/-- Redirecting the last node `z` of one chain to the head of another joins the
two, provided nothing else moves. -/
theorem link (hc : Chain null next h (l ++ [z])) (hc' : Chain null next' h' l')
    (hz : next' z = h') (hag : ∀ a ∈ l, next' a = next a) :
    Chain null next' h (l ++ z :: l') := by
  induction l generalizing h with
  | nil =>
      obtain ⟨rfl, hne, -⟩ := hc
      exact ⟨rfl, hne, by rw [hz]; exact hc'⟩
  | cons a l ih =>
      obtain ⟨rfl, hne, htail⟩ := hc
      refine ⟨rfl, hne, ?_⟩
      rw [hag h List.mem_cons_self]
      exact ih htail (fun b hb => hag b (List.mem_cons_of_mem _ hb))

/-- The chain behind one of its nodes. -/
theorem behind (hc : Chain null next h (l ++ z :: l')) : Chain null next (next z) l' := by
  induction l generalizing h with
  | nil => exact hc.2.2
  | cons a l ih => exact ih hc.2.2

/-- Pointing a node at `null`, and nothing before it elsewhere, ends the chain there. -/
theorem cut (hc : Chain null next h (l ++ z :: l')) (hz : next' z = null)
    (hag : ∀ a ∈ l, next' a = next a) : Chain null next' h (l ++ [z]) := by
  induction l generalizing h with
  | nil =>
      obtain ⟨rfl, hne, -⟩ := hc
      exact ⟨rfl, hne, hz⟩
  | cons a l ih =>
      obtain ⟨rfl, hne, htail⟩ := hc
      refine ⟨rfl, hne, ?_⟩
      rw [hag h List.mem_cons_self]
      exact ih htail fun b hb => hag b (List.mem_cons_of_mem _ hb)

/-- No node is visited twice. -/
theorem nodup (hc : Chain null next h l) : l.Nodup := by
  induction l generalizing h with
  | nil => exact List.nodup_nil
  | cons a l ih =>
      have htail := hc.2.2
      refine List.nodup_cons.mpr ⟨fun ha => ?_, ih htail⟩
      -- from a second visit on the chain would go on as from the first
      obtain ⟨l₁, l₂, rfl⟩ := List.append_of_mem ha
      have hlen := congrArg List.length (htail.unique htail.behind)
      simp only [List.length_append, List.length_cons] at hlen
      omega

end Chain
